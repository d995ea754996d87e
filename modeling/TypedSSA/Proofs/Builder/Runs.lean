import Mathlib.Data.List.Nodup
import TypedSSA.Builder
import TypedSSA.Proofs.Typed.Erasure

/-!
# Runs of a builder

An operation (`Builder.Op`) may succeed or fail, and in each case leaves a builder
(`Builder.perform`). `Builder.Reachable` are the builders that any operations make of a new one.

What an operation can do to a builder is said once, by `Builder.Change`: take names and no more, put
an instruction in the open block, close the block or open one. `Builder.change_perform` proves that
there is nothing else, and every invariant is then a matter of four cases. The one here
(`Builder.Inv`) says that no two locals of a body have one name, and no two blocks one label.
-/

namespace TypedSSA

namespace Supply

/-- Whether the supply has issued a name. -/
def Issued (s : Supply) : LocalName → Prop
  | .number k => k < s.nextLocal
  | .symbol x => x ∈ s.symbols

/-- `later` is what the supply can become by issuing names and labels. -/
structure Grows (s later : Supply) : Prop where
  scope : later.scope = s.scope
  issued (name : LocalName) : s.Issued name → later.Issued name

theorem Grows.refl (s : Supply) : s.Grows s := ⟨rfl, fun _ h => h⟩

/-- A name is new to `s` and comes from `later`. -/
structure New (s later : Supply) (name : LocalName) : Prop where
  grows : s.Grows later
  not_issued : ¬ s.Issued name
  issued : later.Issued name

theorem new_fresh (s : Supply) : s.New s.fresh.2 s.fresh.1 := by
  refine ⟨⟨rfl, fun name hn => ?_⟩, Nat.lt_irrefl _, Nat.lt_succ_self _⟩
  cases name with
  | number k => exact Nat.lt_succ_of_lt hn
  | symbol x => exact hn

/-- A symbol that may spell a name and is new is issued; for any other, nothing is. -/
theorem symbol_spec (s : Supply) (x : String) :
    (validSymbol x = true ∧ ¬ s.Issued (.symbol x) ∧
      s.symbol x = (.ok (.symbol x), { s with symbols := x :: s.symbols })) ∨
    (¬ (validSymbol x = true ∧ ¬ s.Issued (.symbol x)) ∧
      ∃ fault, s.symbol x = (.error fault, s)) := by
  unfold symbol
  split
  · rename_i hvalid
    split
    · rename_i hmem
      exact .inr ⟨fun h => h.2 hmem, _, rfl⟩
    · rename_i hmem
      exact .inl ⟨hvalid, hmem, rfl⟩
  · rename_i hvalid
    exact .inr ⟨fun h => hvalid h.1, _, rfl⟩

/-- A symbol that is issued is new, and stays issued. -/
theorem symbol_cases (s : Supply) (x : String) :
    (∃ f, s.symbol x = (.error f, s)) ∨
      ∃ later, s.symbol x = (.ok (.symbol x), later) ∧ s.New later (.symbol x) := by
  obtain ⟨-, hnew, h⟩ | ⟨-, hfault⟩ := s.symbol_spec x
  · refine .inr ⟨_, h, ⟨rfl, fun name hn => ?_⟩, hnew, List.mem_cons_self⟩
    cases name with
    | number k => exact hn
    | symbol y => exact List.mem_cons_of_mem _ hn
  · exact .inl hfault

theorem grows_label (s : Supply) (hint : String) : s.Grows (s.label hint).2 :=
  ⟨rfl, fun name hn => by cases name <;> exact hn⟩

end Supply

/-- The result of an instruction has the type that the check gives. -/
def Named.Checked (n : Named) : Prop := n.instr.check = .ok n.resultType

theorem Instr.checked_of_checkBind {i : Instr} {t : Scalar} (h : i.checkBind = .ok t)
    (name : LocalName) : (Named.bind name t i).Checked := by
  unfold checkBind at h
  show i.check = .ok (.scalar t)
  cases hc : i.check with
  | error f => rw [hc] at h; cases h
  | ok r =>
    rw [hc] at h
    cases r with
    | void => cases h
    | scalar s => cases h; rfl

theorem Instr.checked_of_checkDiscard {i : Instr} (h : i.checkDiscard = .ok ()) :
    (Named.discard i).Checked := by
  unfold checkDiscard at h
  show i.check = .ok .void
  cases hc : i.check with
  | error f => rw [hc] at h; cases h
  | ok r =>
    rw [hc] at h
    cases r with
    | void => rfl
    | scalar s => cases h

namespace Builder

variable {type : FuncType}

/-! ## Operations -/

/-- A call of one of a builder's operations. -/
inductive Op (type : FuncType) where
  | newLabel (hint : String)
  | bind {t : Scalar} (i : Typed.Instr (.scalar t))
  | bindAs (symbol : String) {t : Scalar} (i : Typed.Instr (.scalar t))
  | discard (i : Typed.Instr .void)
  | tryBind (i : Instr)
  | tryDiscard (i : Instr)
  | terminate (t : Typed.Terminator type.ret)
  | tryTerminate (t : Terminator)
  | startBlock (label : Label)

/-- What an operation gives if it succeeds. -/
inductive Answer where
  | nothing
  | label (l : Label)
  /-- The local for the result of an instruction. -/
  | value (v : Value)
deriving DecidableEq

/-- The outcome of an operation, and the builder after it. -/
def perform (b : Builder type) : Op type → Except Fault Answer × Builder type
  | .newLabel hint => let (l, b) := b.newLabel hint; (.ok (.label l), b)
  | .bind i =>
    let (outcome, b) := b.bind i
    (outcome.map fun n => .value (Typed.Operand.name n).erase, b)
  | .bindAs symbol i =>
    let (outcome, b) := b.bindAs symbol i
    (outcome.map fun n => .value (Typed.Operand.name n).erase, b)
  | .discard i => let (outcome, b) := b.discard i; (outcome.map fun _ => .nothing, b)
  | .tryBind i => let (outcome, b) := b.tryBind i; (outcome.map .value, b)
  | .tryDiscard i => let (outcome, b) := b.tryDiscard i; (outcome.map fun _ => .nothing, b)
  | .terminate t => let (outcome, b) := b.terminate t; (outcome.map fun _ => .nothing, b)
  | .tryTerminate t => let (outcome, b) := b.tryTerminate t; (outcome.map fun _ => .nothing, b)
  | .startBlock label => let (outcome, b) := b.startBlock label; (outcome.map fun _ => .nothing, b)

/-- The builders that operations make of a new one, whether they succeed or fail. -/
inductive Reachable : Builder type → Prop where
  | new (scope : Scope) (label : Label) : Reachable (new type scope label).1
  | step {b : Builder type} (before : Reachable b) (op : Op type) : Reachable (b.perform op).2

/-- The builder after these operations, in order. -/
def performAll (b : Builder type) (ops : List (Op type)) : Builder type :=
  ops.foldl (fun b op => (b.perform op).2) b

theorem Reachable.performAll {b : Builder type} (h : b.Reachable) (ops : List (Op type)) :
    (b.performAll ops).Reachable := by
  induction ops generalizing b with
  | nil => exact h
  | cons op ops ih => exact ih (h.step op)

/-! ## What an operation can do -/

/-- What an operation can make of a builder. -/
inductive Change (b : Builder type) : Builder type → Prop where
  | names (later : Supply) (grows : b.names.Grows later) : Change b { b with names := later }
  | push (later : Supply) (block : OpenBlock) (n : Named) (grows : b.names.Grows later)
      (isOpen : b.current = some block) (checked : n.Checked)
      (isNew : ∀ name, n.name? = some name → b.names.New later name)
      (phi : n.instr.isPhi = true →
        (∀ m ∈ block.body, m.instr.isPhi = true) ∧ block.label ≠ entryLabel) :
      Change b { b with
        names := later
        current := some { block with body := block.body ++ [n] } }
  | close (block : OpenBlock) (t : Terminator) (isOpen : b.current = some block)
      (checked : t.check type.ret = .ok ()) :
      Change b { b with
        blocks := b.blocks ++ [⟨block.label, block.body, t⟩]
        current := none }
  | start (label : Label) (isClosed : b.current = none) (isNew : label ∉ b.labels) :
      Change b { b with labels := label :: b.labels, current := some ⟨label, []⟩ }

theorem Change.unchanged (b : Builder type) : Change b b := .names b.names (.refl _)

/-- Putting an instruction in the open block, with names taken from `later` before. -/
theorem Change.of_push (b : Builder type) {later : Supply} {n : Named}
    (grows : b.names.Grows later) (checked : n.Checked)
    (isNew : ∀ name, n.name? = some name → b.names.New later name) :
    Change b ({ b with names := later }.push n).2 := by
  unfold Builder.push
  split
  · exact .names later grows
  · rename_i block hblock
    split
    · exact .names later grows
    · split
      · exact .names later grows
      · rename_i hfirst hentry
        refine .push later block n grows hblock checked isNew fun hphi => ⟨fun m hm => ?_, ?_⟩
        · simp only [hphi, Bool.true_and, Bool.not_eq_true, List.any_eq_false] at hfirst
          simpa using hfirst m hm
        · simpa [hphi] using hentry

theorem Change.of_close (b : Builder type) {t : Terminator} (checked : t.check type.ret = .ok ()) :
    Change b (b.close t).2 := by
  unfold Builder.close
  split
  · exact .unchanged b
  · rename_i block hblock
    exact .close block t hblock checked

/-- An operation takes names and no more, puts an instruction in the open block, closes the block or
opens one. -/
theorem change_perform (b : Builder type) (op : Op type) : Change b (b.perform op).2 := by
  cases op with
  | newLabel hint => exact .names _ (b.names.grows_label hint)
  | @bind t i =>
    refine .of_push b b.names.new_fresh.grows ?_ fun name hname => ?_
    · exact i.check_erase
    · exact Option.some.inj hname ▸ b.names.new_fresh
  | @bindAs x t i =>
    show Change b (b.bindAs x i).2
    unfold bindAs
    obtain ⟨f, h⟩ | ⟨later, h, hnew⟩ := b.names.symbol_cases x
    · rw [h]
      exact .unchanged b
    · rw [h]
      exact .of_push b hnew.grows i.check_erase fun name hname => Option.some.inj hname ▸ hnew
  | discard i =>
    exact .of_push b (.refl _) i.check_erase fun name hname => nomatch hname
  | tryBind i =>
    show Change b (b.tryBind i).2
    unfold tryBind
    cases h : i.checkBind with
    | error f => exact .names _ b.names.new_fresh.grows
    | ok ty =>
      refine .of_push b b.names.new_fresh.grows (Instr.checked_of_checkBind h _)
        fun name hname => ?_
      exact Option.some.inj hname ▸ b.names.new_fresh
  | tryDiscard i =>
    show Change b (b.tryDiscard i).2
    unfold tryDiscard
    cases h : i.checkDiscard with
    | error f => exact .unchanged b
    | ok _ =>
      exact .of_push b (.refl _) (Instr.checked_of_checkDiscard h) fun name hname => nomatch hname
  | terminate t => exact .of_close b t.check_erase
  | tryTerminate t =>
    show Change b (b.tryTerminate t).2
    unfold tryTerminate
    cases h : t.check type.ret with
    | error f => exact .unchanged b
    | ok _ => exact .of_close b h
  | startBlock label =>
    show Change b (b.startBlock label).2
    unfold startBlock
    split
    · exact .unchanged b
    · rename_i hclosed
      split
      · exact .unchanged b
      · rename_i hlabel
        exact .start label hclosed hlabel

/-- What holds of a new builder, and stays so whatever an operation can do, holds of every
builder. -/
theorem Reachable.induction {P : Builder type → Prop} {b : Builder type} (h : b.Reachable)
    (new : ∀ scope label, P (Builder.new type scope label).1)
    (change : ∀ {b b'}, P b → Change b b' → P b') : P b := by
  induction h with
  | new scope label => exact new scope label
  | step _ op ih => exact change ih (change_perform _ op)

/-! ## Names and labels -/

/-- The names bound in the closed blocks, and then in the open one. -/
def boundNames (b : Builder type) : List LocalName :=
  (b.blocks.map Block.body ++ b.current.toList.map OpenBlock.body).flatMap fun body =>
    body.filterMap Named.name?

/-- The labels of the closed blocks, and then of the open one. -/
def startedLabels (b : Builder type) : List Label :=
  b.blocks.map Block.label ++ b.current.toList.map OpenBlock.label

/-- No two locals have one name, and no two blocks one label. -/
structure Inv (b : Builder type) : Prop where
  params : b.params = (List.range type.params.length).map .number
  issued (name : LocalName) : name ∈ b.params ++ b.boundNames → b.names.Issued name
  names : (b.params ++ b.boundNames).Nodup
  mem_labels (label : Label) : label ∈ b.labels ↔ label ∈ b.startedLabels
  labels : b.startedLabels.Nodup
  /-- The entry is the first block. -/
  first : b.startedLabels.head? = some entryLabel

theorem nextLocal_params (s : Supply) (types : List Scalar) :
    (s.params types).2.nextLocal = s.nextLocal + types.length := by
  induction types generalizing s with
  | nil => rfl
  | cons t ts ih =>
    show (Supply.params s.fresh.2 ts).2.nextLocal = _
    rw [ih, List.length_cons]
    show s.nextLocal + 1 + ts.length = _
    omega

theorem inv_new (scope : Scope) (label : Label) : (Builder.new type scope label).1.Inv := by
  have hnext : (Builder.new type scope label).1.names.nextLocal = type.params.length := by
    show ((Supply.new scope).params type.params).2.nextLocal = _
    rw [nextLocal_params]
    exact Nat.zero_add _
  have hbound : (Builder.new type scope label).1.boundNames = [] := rfl
  refine ⟨rfl, fun name hname => ?_, ?_, fun l => Iff.rfl, List.nodup_singleton _, rfl⟩
  · rw [hbound, List.append_nil] at hname
    obtain ⟨k, hk, rfl⟩ := List.mem_map.mp hname
    show k < _
    rw [hnext]
    exact List.mem_range.mp hk
  · rw [hbound, List.append_nil]
    exact List.nodup_range.map fun _ _ h => LocalName.number.inj h

theorem boundNames_push {b : Builder type} {block : OpenBlock} (isOpen : b.current = some block)
    (later : Supply) (n : Named) :
    ({ b with
      names := later
      current := some { block with body := block.body ++ [n] } } : Builder type).boundNames =
      b.boundNames ++ n.name?.toList := by
  cases n <;> simp [boundNames, isOpen, Named.name?]

/-- The invariant of a builder with other names and labels. -/
theorem Inv.congr {b b' : Builder type} (h : b.Inv) (params : b'.params = b.params)
    (grows : b.names.Grows b'.names) (names : b'.boundNames = b.boundNames)
    (labels : b'.labels = b.labels) (started : b'.startedLabels = b.startedLabels) : b'.Inv where
  params := params.trans h.params
  issued name hn := grows.issued name (h.issued name (by rwa [params, names] at hn))
  names := by rw [params, names]; exact h.names
  mem_labels l := by rw [labels, started]; exact h.mem_labels l
  labels := by rw [started]; exact h.labels
  first := by rw [started]; exact h.first

/-- An instruction that binds a name has just taken it from the supply. All names bound before had
been issued by then, so it is another. -/
theorem Inv.change {b b' : Builder type} (h : b.Inv) (hc : Change b b') : b'.Inv := by
  cases hc with
  | names later grows => exact h.congr rfl grows rfl rfl rfl
  | push later block n grows isOpen checked isNew phi =>
    have hbound := boundNames_push isOpen later n
    have hstarted : ({ b with
        names := later
        current := some { block with body := block.body ++ [n] } } : Builder type).startedLabels =
        b.startedLabels := by
      simp [startedLabels, isOpen]
    have hissued : ∀ name ∈ n.name?.toList,
        later.Issued name ∧ name ∉ b.params ++ b.boundNames := by
      intro name hname
      have hnew := isNew name (Option.mem_toList.mp hname)
      exact ⟨hnew.issued, fun hn => hnew.not_issued (h.issued name hn)⟩
    refine ⟨h.params, fun name hn => ?_, ?_, fun l => ?_, ?_, ?_⟩
    · rw [hbound, ← List.append_assoc, List.mem_append] at hn
      rcases hn with hn | hn
      · exact grows.issued name (h.issued name hn)
      · exact (hissued name hn).1
    · rw [hbound, ← List.append_assoc]
      refine h.names.append ?_ fun name hn hn' => (hissued name hn').2 hn
      cases n.name? <;> simp
    · rw [hstarted]
      exact h.mem_labels l
    · rw [hstarted]
      exact h.labels
    · rw [hstarted]
      exact h.first
  | close block t isOpen checked =>
    refine h.congr rfl (.refl _) ?_ rfl ?_
    · simp [boundNames, isOpen]
    · simp [startedLabels, isOpen]
  | start label isClosed isNew =>
    have hbound : ({ b with labels := label :: b.labels, current := some ⟨label, []⟩ } :
        Builder type).boundNames = b.boundNames := by
      simp [boundNames, isClosed]
    have hstarted : ({ b with labels := label :: b.labels, current := some ⟨label, []⟩ } :
        Builder type).startedLabels = b.startedLabels ++ [label] := by
      simp [startedLabels, isClosed]
    refine ⟨h.params, fun name hn => h.issued name (hbound ▸ hn), hbound.symm ▸ h.names,
      fun l => ?_, ?_, ?_⟩
    · rw [hstarted, List.mem_append, List.mem_singleton, ← h.mem_labels, List.mem_cons, or_comm]
    · rw [hstarted]
      refine h.labels.append (List.nodup_singleton _) fun l hl hl' => isNew ?_
      rw [List.mem_singleton] at hl'
      rwa [h.mem_labels, ← hl']
    · rw [hstarted, List.head?_append, h.first]
      rfl

/-- No two locals of a body have one name, whatever operations were performed, and whether they
succeeded or failed. -/
theorem Reachable.inv {b : Builder type} (h : b.Reachable) : b.Inv :=
  h.induction inv_new fun hb hc => hb.change hc

end Builder

end TypedSSA
