import TypedSSA.Proofs.Builder.Given
import TypedSSA.Proofs.Builder.Supply

/-!
# Operations that fail

An operation that fails has put nothing into a block, closed none and opened none. But the first
thing that an operation does is to take the name that it is to bind, and if it fails after that the
name is not given back (`Builder.names_perform`). So one that takes no name can be left out of a run
if it fails, and nothing that the run gives besides is any different
(`Builder.failures_leave_body`).

Nobody misses a number that is lost in this way, as numbers are not asked for. A symbol is asked
for. If no place is found for the instruction that it was to name, the symbol stays taken with
nothing bound to it, and whoever asks for it again hears that it is bound
(`Builder.bindAs_duplicateName_iff`).
-/

namespace TypedSSA

/-- The open block has no place for an instruction, or there is no open block. -/
def Fault.noPlace : Fault → Bool
  | noOpenBlock => true
  | phiNotAtBlockEntry _ => true
  | phiInEntryBlock _ => true
  | _ => false

namespace Builder

variable {type : FuncType} {b : Builder type} {op : Op type} {fault : Fault} {x : String}

/-! ## Names -/

/-- The supply after an operation has taken from it what it needs. -/
def Op.take (op : Op type) (s : Supply) : Supply :=
  match op with
  | .newLabel hint => (s.label hint).2
  | .bind _ => s.fresh.2
  | .bindAs symbol _ => (s.symbol symbol).2
  | .tryBind _ => s.fresh.2
  | _ => s

theorem names_push (b : Builder type) (n : Named) : (b.push n).2.names = b.names := by
  obtain ⟨fault, h⟩ | ⟨block, -, h⟩ := b.push_cases n
  · rw [h]
  · rw [h]

theorem names_close (b : Builder type) (t : Terminator) : (b.close t).2.names = b.names := by
  unfold close
  split
  · rfl
  · rfl

/-- What an operation takes from the supply does not depend on whether it succeeds. -/
theorem names_perform (b : Builder type) (op : Op type) :
    (b.perform op).2.names = op.take b.names := by
  cases op with
  | newLabel hint => rfl
  | bind i => exact names_push _ _
  | bindAs x i =>
    show (b.bindAs x i).2.names = (b.names.symbol x).2
    unfold bindAs
    obtain ⟨fault, h⟩ | ⟨later, h, -⟩ := b.names.symbol_cases x
    · rw [h]
    · rw [h]
      exact names_push _ _
  | discard i => exact names_push _ _
  | tryBind i =>
    show (b.tryBind i).2.names = b.names.fresh.2
    unfold tryBind
    cases i.checkBind with
    | error fault => rfl
    | ok ty => exact names_push _ _
  | tryDiscard i =>
    show (b.tryDiscard i).2.names = b.names
    unfold tryDiscard
    cases i.checkDiscard with
    | error fault => rfl
    | ok _ => exact names_push _ _
  | terminate t => exact names_close _ _
  | tryTerminate t =>
    show (b.tryTerminate t).2.names = b.names
    unfold tryTerminate
    cases t.check type.ret with
    | error fault => rfl
    | ok _ => exact names_close _ _
  | startBlock label =>
    show (b.startBlock label).2.names = b.names
    unfold startBlock
    split
    · rfl
    · split
      · rfl
      · rfl

/-! ## One operation that fails -/

/-- An operation that fails does no more than take names. -/
theorem perform_of_fail (h : (b.perform op).1 = .error fault) :
    (b.perform op).2 = { b with names := op.take b.names } := by
  have heffect := b.effect_perform op
  have hnames := b.names_perform op
  revert h hnames
  generalize b.perform op = r at heffect
  intro h hnames
  cases heffect with
  | fail _ later =>
    obtain rfl : later = op.take b.names := hnames
    rfl
  | label => cases h
  | push => cases h
  | close => cases h
  | start => cases h

/-- `after` is `b` but for the names that have been taken. -/
structure SameBody (b after : Builder type) : Prop where
  label : after.label = b.label
  params : after.params = b.params
  blocks : after.blocks = b.blocks
  labels : after.labels = b.labels
  current : after.current = b.current
  scope : after.names.scope = b.names.scope
  nextLabel : after.names.nextLabel = b.names.nextLabel

/-- What an operation may have used up of a supply `s` when it fails and leaves `later`: the next
number, or the symbol that it asks for. -/
def Op.UsesUp (op : Op type) (s later : Supply) : Prop :=
  match op with
  | .bind _ => later.nextLocal = s.nextLocal + 1 ∧ later.symbols = s.symbols
  | .tryBind _ => later.nextLocal = s.nextLocal + 1 ∧ later.symbols = s.symbols
  | .bindAs x _ => later.nextLocal = s.nextLocal ∧
      (later.symbols = s.symbols ∨ x ∉ s.symbols ∧ later.symbols = x :: s.symbols)
  | _ => later.nextLocal = s.nextLocal ∧ later.symbols = s.symbols

/-- What failing comes to, for all operations at once. By `effect_perform` the builder differs in
its supply alone, which gives the first part. What it differs by there was taken before anything
could fail (`names_perform`), so it is the one name that the operation asks for. -/
theorem sameBody_of_fail (h : (b.perform op).1 = .error fault) :
    SameBody b (b.perform op).2 ∧ op.UsesUp b.names (b.perform op).2.names := by
  rw [perform_of_fail h]
  have hsame : ∀ later : Supply, later.scope = b.names.scope →
      later.nextLabel = b.names.nextLabel → SameBody b { b with names := later } :=
    fun later hscope hnext => ⟨rfl, rfl, rfl, rfl, rfl, hscope, hnext⟩
  cases op with
  | newLabel hint => cases h
  | bindAs x i =>
    show SameBody b { b with names := (b.names.symbol x).2 } ∧
      (Op.bindAs x i).UsesUp b.names (b.names.symbol x).2
    obtain ⟨-, hnew, hx⟩ | ⟨-, _, hx⟩ := b.names.symbol_spec x
    · rw [hx]
      exact ⟨hsame _ rfl rfl, rfl, .inr ⟨hnew, rfl⟩⟩
    · rw [hx]
      exact ⟨hsame _ rfl rfl, rfl, .inl rfl⟩
  | _ => exact ⟨hsame _ rfl rfl, rfl, rfl⟩

/-! ## Runs without the operations that fail -/

/-- An operation that takes nothing from the supply. -/
def Op.isNameless : Op type → Bool
  | .discard _ => true
  | .tryDiscard _ => true
  | .terminate _ => true
  | .tryTerminate _ => true
  | .startBlock _ => true
  | _ => false

/-- An operation that needs no name takes nothing. -/
theorem Op.take_of_isNameless (h : op.isNameless = true) (s : Supply) : op.take s = s := by
  cases op with
  | newLabel => cases h
  | bind => cases h
  | bindAs => cases h
  | tryBind => cases h
  | _ => rfl

/-- These operations, each with what it gives. -/
def log (b : Builder type) (ops : List (Op type)) : List (Op type × Except Fault Answer) :=
  ops.zip (b.outcomes ops)

theorem log_cons (b : Builder type) (op : Op type) (ops : List (Op type)) :
    b.log (op :: ops) = (op, (b.perform op).1) :: (b.perform op).2.log ops :=
  rfl

theorem log_concat (b : Builder type) (ops : List (Op type)) (op : Op type) :
    b.log (ops ++ [op]) = b.log ops ++ [(op, ((b.performAll ops).perform op).1)] := by
  rw [log, outcomes_concat, List.zip_append (length_outcomes b ops).symm]
  rfl

/-- Without an operation that takes no name and fails, a run gives the same at all other places and
leaves the same builder. -/
theorem log_eraseIdx {ops : List (Op type)} {i : Nat}
    (h : (b.log ops)[i]? = some (op, .error fault)) (hop : op.isNameless = true) :
    b.log (ops.eraseIdx i) = (b.log ops).eraseIdx i ∧
      b.performAll (ops.eraseIdx i) = b.performAll ops := by
  induction ops generalizing b i with
  | nil => cases h
  | cons first ops ih =>
    rw [log_cons] at h ⊢
    cases i with
    | zero =>
      obtain ⟨rfl, hfail⟩ := Prod.mk.inj (Option.some.inj h)
      have hleft : (b.perform first).2 = b := by
        rw [perform_of_fail hfail, Op.take_of_isNameless hop]
      show b.log ops = (b.perform first).2.log ops ∧
        b.performAll ops = (b.perform first).2.performAll ops
      rw [hleft]
      exact ⟨rfl, rfl⟩
    | succ i =>
      obtain ⟨hlog, hleft⟩ := ih h
      exact ⟨congrArg (List.cons _) hlog, hleft⟩

/-- An operation that fails leaves the body as it is, and has used up a number or the symbol that it
asked for at most. If it is one that takes no name, then a run without it gives the same at all
other places, and the same function or fault at the end. -/
theorem failures_leave_body (b : Builder type) :
    (∀ (op : Op type) (fault : Fault), (b.perform op).1 = .error fault →
      SameBody b (b.perform op).2 ∧ op.UsesUp b.names (b.perform op).2.names) ∧
    ∀ (ops : List (Op type)) (i : Nat) (op : Op type) (fault : Fault),
      (b.log ops)[i]? = some (op, .error fault) → op.isNameless = true →
        b.log (ops.eraseIdx i) = (b.log ops).eraseIdx i ∧
          (b.performAll (ops.eraseIdx i)).finish = (b.performAll ops).finish := by
  refine ⟨fun op fault h => sameBody_of_fail h, fun ops i op fault h hop => ?_⟩
  obtain ⟨hlog, hleft⟩ := log_eraseIdx h hop
  exact ⟨hlog, congrArg finish hleft⟩

/-- Two of these operations succeed. The phi fails, since nothing can arrive at the entry, and so do
a return with a value where there is none to return, a block that is started before its time, and
one that there is already. -/
def hindered : List (Op ⟨[.bool], .void⟩) :=
  let flag : Typed.Operand .bool := .name ⟨⟨0⟩, .number 0⟩
  [.bindAs "x" (.phi [(flag, "entry")] (List.cons_ne_nil _ _)),
    .tryTerminate (.retVal flag.erase),
    .bind (.cmp .eq flag flag),
    .startBlock "next",
    .terminate .ret,
    .startBlock "entry"]

theorem failures_leave_body_hindered :
    (new _ ⟨0⟩ "f").1.outcomes hindered = [.error (.phiInEntryBlock "f"),
      .error (.typeMismatch .void (.scalar .bool)),
      .ok (.value (.loc .bool (.number 1) (some ⟨0⟩))), .error (.unterminatedBlock "entry"),
      .ok .nothing, .error (.duplicateLabel "entry")] ∧
    (new _ ⟨0⟩ "f").1.log (hindered.eraseIdx 3) = ((new _ ⟨0⟩ "f").1.log hindered).eraseIdx 3 ∧
    ((new _ ⟨0⟩ "f").1.performAll (hindered.eraseIdx 3)).finish =
      ((new _ ⟨0⟩ "f").1.performAll hindered).finish ∧
    SameBody (new _ ⟨0⟩ "f").1 ((new _ ⟨0⟩ "f").1.performAll (hindered.take 1)) ∧
    ((new _ ⟨0⟩ "f").1.performAll (hindered.take 1)).names.symbols = ["x"] := by
  obtain ⟨hone, hrun⟩ := failures_leave_body (new ⟨[.bool], .void⟩ ⟨0⟩ "f").1
  obtain ⟨hlog, hfinish⟩ :=
    hrun hindered 3 (.startBlock "next") (.unterminatedBlock "entry") rfl rfl
  exact ⟨by decide, hlog, hfinish, (hone _ (.phiInEntryBlock "f") rfl).1, by decide⟩

/-! ## Symbols -/

/-- Putting an instruction into the open block fails only for want of a place, as its type has been
checked before. -/
theorem noPlace_of_push {n : Named} (h : (b.push n).1 = .error fault) : fault.noPlace = true := by
  unfold push at h
  split at h
  · cases h
    rfl
  · split at h
    · cases h
      rfl
    · split at h
      · cases h
        rfl
      · cases h

/-- A symbol is no name, or is taken already. Otherwise it is taken, and its instruction then put
into the open block or refused. -/
theorem bindAs_cases (b : Builder type) (x : String) {t : Scalar} (i : Typed.Instr (.scalar t)) :
    (Supply.validSymbol x = false ∧ b.bindAs x i = (.error (.invalidSymbol x), b)) ∨
    (Supply.validSymbol x = true ∧ x ∈ b.names.symbols ∧
      b.bindAs x i = (.error (.duplicateName (.symbol x)), b)) ∨
    (Supply.validSymbol x = true ∧ x ∉ b.names.symbols ∧
      ((∃ fault, fault.noPlace = true ∧ b.bindAs x i = (.error fault, { b with
        names := { b.names with symbols := x :: b.names.symbols } })) ∨
      ∃ block, b.current = some block ∧
        b.bindAs x i = (.ok ⟨b.names.scope, .symbol x⟩, { b with
          names := { b.names with symbols := x :: b.names.symbols }
          current := some { block with
            body := block.body ++ [.bind (.symbol x) t i.erase] } }))) := by
  cases hvalid : Supply.validSymbol x with
  | false =>
    refine .inl ⟨rfl, ?_⟩
    simp [bindAs, Supply.symbol, hvalid]
  | true =>
    by_cases hx : x ∈ b.names.symbols
    · refine .inr (.inl ⟨rfl, hx, ?_⟩)
      simp [bindAs, Supply.symbol, hvalid, hx]
    · refine .inr (.inr ⟨rfl, hx, ?_⟩)
      simp only [bindAs, Supply.symbol, hvalid, hx, if_true, if_false]
      obtain ⟨fault, h⟩ | ⟨block, hblock, h⟩ := push_cases ({ b with
        names := { b.names with symbols := x :: b.names.symbols } } : Builder type)
        (.bind (.symbol x) t i.erase)
      · have hplace := noPlace_of_push (congrArg Prod.fst h)
        rw [h]
        exact .inl ⟨fault, hplace, rfl⟩
      · rw [h]
        exact .inr ⟨block, hblock, rfl⟩

/-- The name is said to be bound if the supply has issued the symbol before. -/
theorem bindAs_duplicateName_iff_taken {t : Scalar} {i : Typed.Instr (.scalar t)}
    {name : LocalName} : (b.bindAs x i).1 = .error (.duplicateName name) ↔
      name = .symbol x ∧ Supply.validSymbol x = true ∧ x ∈ b.names.symbols := by
  obtain ⟨hvalid, h⟩ | ⟨hvalid, hx, h⟩ | ⟨-, hx, ⟨fault, hplace, h⟩ | ⟨block, -, h⟩⟩ :=
    b.bindAs_cases x i
  all_goals rw [h]
  · refine iff_of_false (fun hfault => ?_) fun htaken => ?_
    · cases hfault
    · rw [htaken.2.1] at hvalid
      cases hvalid
  · refine ⟨fun hfault => ?_, fun htaken => by rw [htaken.1]⟩
    cases hfault
    exact ⟨rfl, hvalid, hx⟩
  · refine iff_of_false (fun hfault => ?_) fun htaken => hx htaken.2.2
    cases hfault
    cases hplace
  · refine iff_of_false (fun hfault => ?_) fun htaken => hx htaken.2.2
    cases hfault

/-- A symbol is taken for the result of an instruction that is then refused. -/
inductive Loses (x : String) : Op type × Except Fault Answer → Prop where
  | refused {t : Scalar} (i : Typed.Instr (.scalar t)) (fault : Fault)
      (noPlace : fault.noPlace = true) : Loses x (.bindAs x i, .error fault)

/-- Some operation of a run has lost a symbol. -/
def Lost (b : Builder type) (ops : List (Op type)) (x : String) : Prop :=
  ∃ entry ∈ b.log ops, Loses x entry

theorem lost_concat {ops : List (Op type)} : b.Lost (ops ++ [op]) x ↔
    b.Lost ops x ∨ Loses x (op, ((b.performAll ops).perform op).1) := by
  simp [Lost, log_concat, or_and_right, exists_or]

/-- A symbol is taken by the operation that asks for it, if it may be a name, and by no other. -/
theorem mem_symbols_perform : x ∈ (b.perform op).2.names.symbols ↔ x ∈ b.names.symbols ∨
    Supply.validSymbol x = true ∧
      ∃ (t : Scalar) (i : Typed.Instr (.scalar t)), op = .bindAs x i := by
  rw [names_perform]
  cases op with
  | bindAs y i =>
    show x ∈ (b.names.symbol y).2.symbols ↔ _
    obtain ⟨hvalid, hnew, h⟩ | ⟨hnot, fault, h⟩ := b.names.symbol_spec y
    · rw [h, List.mem_cons, or_comm]
      refine or_congr_right ⟨?_, ?_⟩
      · rintro rfl
        exact ⟨hvalid, _, i, rfl⟩
      · rintro ⟨-, _, _, ⟨⟩⟩
        rfl
    · rw [h]
      refine (or_iff_left_of_imp ?_).symm
      rintro ⟨hvalid, _, _, ⟨⟩⟩
      exact not_not.mp fun hx => hnot ⟨hvalid, hx⟩
  | _ =>
    refine (or_iff_left ?_).symm
    rintro ⟨-, _, _, ⟨⟩⟩

/-- A symbol that is not new to the supply is not new to the body. -/
theorem Change.symbol_mem_iff {b' : Builder type} (h : Change b b')
    (hx : x ∈ b'.names.symbols → x ∈ b.names.symbols) :
    .symbol x ∈ b'.boundNames ↔ .symbol x ∈ b.boundNames := by
  cases h with
  | names later grows => exact Iff.rfl
  | push later block n grows isOpen checked isNew =>
    rw [boundNames_push isOpen, List.mem_append, Option.mem_toList]
    exact or_iff_left fun hname => (isNew _ hname).not_issued (hx (isNew _ hname).issued)
  | close block t isOpen => simp [boundNames, isOpen]
  | start label isClosed => simp [boundNames, isClosed]

/-- The supply has taken a symbol if and only if it is bound or lost, and it is not both. -/
structure Accounted (b : Builder type) (x : String) (lost : Prop) : Prop where
  valid : x ∈ b.names.symbols → Supply.validSymbol x = true
  taken_iff : x ∈ b.names.symbols ↔ .symbol x ∈ b.boundNames ∨ lost
  not_both : ¬ (.symbol x ∈ b.boundNames ∧ lost)

theorem symbols_params (s : Supply) (types : List Scalar) :
    (s.params types).2.symbols = s.symbols := by
  induction types generalizing s with
  | nil => rfl
  | cons t ts ih => exact ih s.fresh.2

theorem accounted_new (scope : Scope) (label : Label) (x : String) :
    (new type scope label).1.Accounted x False := by
  have htaken : (new type scope label).1.names.symbols = [] := symbols_params _ _
  have hbound : (new type scope label).1.boundNames = [] := rfl
  refine ⟨fun hx => ?_, ?_, fun hboth => hboth.2⟩
  · rw [htaken] at hx
    exact (List.not_mem_nil hx).elim
  · rw [htaken, hbound, or_false]
    exact iff_of_false List.not_mem_nil List.not_mem_nil

/-- A symbol that is lost was not taken before, and is from then on. -/
theorem Loses.new (h : Loses x (op, (b.perform op).1)) :
    x ∉ b.names.symbols ∧ x ∈ (b.perform op).2.names.symbols := by
  generalize houtcome : (b.perform op).1 = outcome at h
  cases h with
  | refused i fault hplace =>
    obtain ⟨-, h⟩ | ⟨-, -, h⟩ | ⟨-, hx, ⟨_, -, h⟩ | ⟨block, -, h⟩⟩ := b.bindAs_cases x i
    all_goals rw [perform, h] at houtcome
    · cases houtcome
      cases hplace
    · cases houtcome
      cases hplace
    · rw [perform, h]
      exact ⟨hx, List.mem_cons_self⟩
    · cases houtcome

/-- The account of a symbol is kept by every operation. The only one that it takes to look at is the
first that asks for the symbol: either that binds it, or it fails for want of a place, and then the
symbol is lost. -/
theorem Accounted.perform {lost : Prop} (h : b.Accounted x lost) (op : Op type) :
    (b.perform op).2.Accounted x (lost ∨ Loses x (op, (b.perform op).1)) := by
  by_cases hold : x ∈ (b.perform op).2.names.symbols → x ∈ b.names.symbols
  · have hbound := (b.change_perform op).symbol_mem_iff hold
    have hkept : ¬ Loses x (op, (b.perform op).1) := fun hl => hl.new.1 (hold hl.new.2)
    have htaken : x ∈ (b.perform op).2.names.symbols ↔ x ∈ b.names.symbols :=
      ⟨hold, fun hx => mem_symbols_perform.mpr (.inl hx)⟩
    refine ⟨fun hx => h.valid (hold hx), ?_, ?_⟩
    · rw [htaken, hbound, or_iff_left hkept, h.taken_iff]
    · rw [hbound, or_iff_left hkept]
      exact h.not_both
  · -- The symbol is taken here and now, so that it was neither bound nor lost before.
    obtain ⟨hnow, hbefore⟩ := Classical.not_imp.mp hold
    obtain ⟨hunbound, hunlost⟩ := not_or.mp (mt h.taken_iff.mpr hbefore)
    obtain ⟨hvalid, t, i, rfl⟩ := (mem_symbols_perform.mp hnow).resolve_left hbefore
    obtain ⟨hinvalid, -⟩ | ⟨-, hx, -⟩ | ⟨-, -, ⟨fault, hplace, hb⟩ | ⟨block, hblock, hb⟩⟩ :=
      b.bindAs_cases x i
    · rw [hvalid] at hinvalid
      cases hinvalid
    · exact absurd hx hbefore
    · rw [Builder.perform, hb] at hnow ⊢
      exact ⟨fun _ => hvalid, iff_of_true hnow (.inr (.inr (.refused i fault hplace))),
        fun hboth => hunbound hboth.1⟩
    · rw [Builder.perform, hb] at hnow ⊢
      refine ⟨fun _ => hvalid, iff_of_true hnow (.inl ?_), fun hboth => ?_⟩
      · rw [boundNames_push hblock]
        exact List.mem_append_right _ List.mem_cons_self
      · rcases hboth.2 with hlost | hlost
        · exact hunlost hlost
        · cases hlost

/-- In every run, a symbol that the supply has taken is bound, or some operation has lost it. -/
theorem accounted_performAll (scope : Scope) (label : Label) (ops : List (Op type)) (x : String) :
    ((new type scope label).1.performAll ops).Accounted x
      ((new type scope label).1.Lost ops x) := by
  induction ops using List.reverseRecOn with
  | nil =>
    have hnone : ¬ (new type scope label).1.Lost [] x := by
      rintro ⟨entry, hentry, -⟩
      exact List.not_mem_nil hentry
    rw [eq_false hnone]
    exact accounted_new scope label x
  | append_singleton ops op ih =>
    rw [performAll_concat, lost_concat]
    exact ih.perform op

/-- To call a result by a symbol fails with the fault that its name is bound if an instruction of
the body is bound to it, or if the symbol has been lost earlier in the run, and in no other case.
What has been lost is never bound. -/
theorem bindAs_duplicateName_iff (scope : Scope) (label : Label) (ops : List (Op type))
    (x : String) :
    (∀ {t : Scalar} (i : Typed.Instr (.scalar t)) (name : LocalName),
      (((new type scope label).1.performAll ops).bindAs x i).1 = .error (.duplicateName name) ↔
        name = .symbol x ∧
          ((∃ n ∈ ((new type scope label).1.performAll ops).instrs, n.name? = some (.symbol x)) ∨
            (new type scope label).1.Lost ops x)) ∧
    ¬ ((∃ n ∈ ((new type scope label).1.performAll ops).instrs, n.name? = some (.symbol x)) ∧
      (new type scope label).1.Lost ops x) := by
  have haccount := accounted_performAll scope label ops x
  rw [← List.mem_filterMap, filterMap_name?_instrs, ← haccount.taken_iff]
  refine ⟨fun i name => ?_, haccount.not_both⟩
  rw [bindAs_duplicateName_iff_taken, and_iff_right_of_imp haccount.valid]

/-- A symbol is asked for when no block is open, which fails, and then a block is started. -/
def retried : List (Op ⟨[.i32], .scalar .i32⟩) :=
  let a : Typed.Operand .i32 := .name ⟨⟨0⟩, .number 0⟩
  [.terminate (.retVal a), .bindAs "x" (.cmp .eq a a), .startBlock "next"]

/-- Whatever is to be called by it now, the symbol is said to be bound, and is not. -/
theorem duplicateName_retried :
    (new _ ⟨0⟩ "f").1.outcomes retried = [.ok .nothing, .error .noOpenBlock, .ok .nothing] ∧
    (∀ {t : Scalar} (i : Typed.Instr (.scalar t)),
      (((new _ ⟨0⟩ "f").1.performAll retried).bindAs "x" i).1 =
        .error (.duplicateName (.symbol "x"))) ∧
    (Fault.duplicateName (.symbol "x")).message = "name %x is already bound" ∧
    ¬ ∃ n ∈ ((new _ ⟨0⟩ "f").1.performAll retried).instrs, n.name? = some (.symbol "x") := by
  have hlost : (new ⟨[.i32], .scalar .i32⟩ ⟨0⟩ "f").1.Lost retried "x" :=
    ⟨_, List.mem_cons_of_mem _ List.mem_cons_self, .refused _ .noOpenBlock rfl⟩
  obtain ⟨hiff, hnot⟩ := bindAs_duplicateName_iff ⟨0⟩ "f" retried "x"
  exact ⟨by decide, fun i => (hiff i _).mpr ⟨rfl, .inr hlost⟩, by decide,
    fun hbound => hnot ⟨hbound, hlost⟩⟩

end Builder

end TypedSSA
