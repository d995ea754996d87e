import TypedSSA.Proofs.Module.Table

/-!
# Operations on a module

A module that does not admit an operation is left as it is, and in one that does the symbol has the
type of the operation afterwards, and no other symbol changes (`Module.perform_cases`). That a
symbol keeps its type for good follows, and with it that no call of a known function comes to be in
disagreement with the symbol table (`Module.WellKept`).
-/

namespace TypedSSA.Module

variable {m m' : Module} {op : Op}

/-! ## One operation -/

/-- The symbol has no other type, and a function that is to be defined is not. -/
structure Admits (m : Module) (op : Op) : Prop where
  type : m.lookup op.symbol = none ∨ m.lookup op.symbol = some op.type
  undefined (f : Func) : op.func? = some f → f.label ∉ m.definitions.map Func.label

/-- `m'` has what the operation says, beside what `m` has. -/
structure Enters (m : Module) (op : Op) (m' : Module) : Prop where
  lookup (symbol : Label) :
    m'.lookup symbol = if symbol = op.symbol then some op.type else m.lookup symbol
  definitions : m'.definitions = m.definitions ++ op.func?.toList

theorem lookup_cons (m : Module) (symbol s : Label) (type : FuncType) :
    ((symbol, type) :: m.symbols).lookup s = if s = symbol then some type else m.lookup s := by
  rw [List.lookup_cons]
  by_cases h : s = symbol
  · simp [h]
  · rw [if_neg h, beq_eq_false_iff_ne.mpr h, Module.lookup]

theorem lookup_known {symbol : Label} {type : FuncType} (h : m.lookup symbol = some type)
    (s : Label) : m.lookup s = if s = symbol then some type else m.lookup s := by
  split
  · rename_i hs
    rw [hs, h]
  · rfl

theorem Admits.eq_of_lookup (h : m.Admits op) {known : FuncType}
    (hknown : m.lookup op.symbol = some known) : known = op.type := by
  rcases h.type with hnone | hsome
  · cases hnone.symm.trans hknown
  · exact Option.some.inj (hknown.symm.trans hsome)

/-- An operation that is admitted succeeds and is entered; any other fails and changes nothing. -/
theorem perform_cases (m : Module) (op : Op) :
    (m.Admits op ∧ ∃ m', m.perform op = (.ok (), m') ∧ m.Enters op m') ∨
    (¬ m.Admits op ∧ ∃ fault, m.perform op = (.error fault, m)) := by
  have he := m.effect_perform op
  generalize m.perform op = r at he ⊢
  have hdeclare : ∀ {symbol type} (f : Func), (Op.declare symbol type).func? = some f →
      f.label ∉ m.definitions.map Func.label := fun _ h => by cases h
  have hdefine : ∀ {f : Func}, f.label ∉ m.definitions.map Func.label →
      ∀ g, (Op.define f).func? = some g → g.label ∉ m.definitions.map Func.label :=
    fun h g hg => Option.some.inj hg ▸ h
  cases he with
  | duplicate f isDefined => exact .inr ⟨fun h => h.undefined f rfl isDefined, _, rfl⟩
  | mismatch _ known isKnown isOther =>
    exact .inr ⟨fun h => isOther (h.eq_of_lookup isKnown), _, rfl⟩
  | redeclare symbol type isKnown =>
    exact .inl ⟨⟨.inr isKnown, hdeclare⟩, m, rfl, lookup_known isKnown, (List.append_nil _).symm⟩
  | declare symbol type isNew =>
    exact .inl ⟨⟨.inl isNew, hdeclare⟩, _, rfl, fun s => m.lookup_cons symbol s type,
      (List.append_nil _).symm⟩
  | define f isUndefined isNew =>
    exact .inl ⟨⟨.inl isNew, hdefine isUndefined⟩, _, rfl,
      fun s => m.lookup_cons f.label s f.type, rfl⟩
  | complete f isUndefined isKnown =>
    exact .inl ⟨⟨.inr isKnown, hdefine isUndefined⟩, _, rfl, lookup_known isKnown, rfl⟩

theorem perform_ok_iff : (m.perform op).1 = .ok () ↔ m.Admits op := by
  rcases m.perform_cases op with ⟨hadmits, m', h, -⟩ | ⟨hnot, fault, h⟩
  · exact iff_of_true (congrArg Prod.fst h) hadmits
  · rw [h]
    exact iff_of_false (fun hok => by cases hok) hnot

theorem Admits.enters (h : m.Admits op) : m.Enters op (m.perform op).2 := by
  rcases m.perform_cases op with ⟨-, m', hperform, henters⟩ | ⟨hnot, -⟩
  · rw [hperform]
    exact henters
  · exact (hnot h).elim

theorem perform_of_error {fault : Fault} (h : (m.perform op).1 = .error fault) :
    (m.perform op).2 = m := by
  rcases m.perform_cases op with ⟨-, m', hperform, -⟩ | ⟨-, fault', hperform⟩
  · rw [hperform] at h
    cases h
  · rw [hperform]

/-- A symbol keeps its type. -/
theorem lookup_perform {symbol : Label} {type : FuncType} (h : m.lookup symbol = some type)
    (op : Op) : (m.perform op).2.lookup symbol = some type := by
  rcases m.perform_cases op with ⟨hadmits, m', hperform, henters⟩ | ⟨-, fault, hperform⟩
  · rw [hperform]
    refine (henters.lookup symbol).trans ?_
    split
    · rename_i hs
      rw [hs] at h
      rw [hadmits.eq_of_lookup h]
    · exact h
  · rw [hperform]
    exact h

/-! ## Runs -/

theorem target_performAll (m : Module) (ops : List Op) : (m.performAll ops).target = m.target := by
  induction ops generalizing m with
  | nil => rfl
  | cons op ops ih => exact (ih _).trans (m.effect_perform op).target

theorem lookup_performAll {symbol : Label} {type : FuncType} (h : m.lookup symbol = some type)
    (ops : List Op) : (m.performAll ops).lookup symbol = some type := by
  induction ops generalizing m with
  | nil => exact h
  | cons op ops ih => exact ih (lookup_perform h op)

/-- The symbol table, the definitions and the declarations of a module agree. -/
structure Coherent (m : Module) : Prop where
  definitions : (m.definitions.map Func.label).Nodup
  declarations : (m.declarations.map Prod.fst).Nodup
  disjoint (f : Func) : f ∈ m.definitions → f.label ∉ m.declarations.map Prod.fst
  /-- A symbol is known if just one function of the module has it, and at the type of that. -/
  lookup (symbol : Label) (type : FuncType) : m.lookup symbol = some type ↔
    (m.functions.filter fun p => p.1 = symbol) = [(symbol, type)]

theorem filter_eq_singleton_iff {l : List (Label × FuncType)} (hl : (l.map Prod.fst).Nodup)
    {d : Label × FuncType} : (l.filter fun p => p.1 = d.1) = [d] ↔ d ∈ l := by
  constructor
  · intro h
    have hd : d ∈ l.filter fun p => p.1 = d.1 := h ▸ List.mem_singleton_self d
    exact (List.mem_filter.mp hd).1
  · intro hd
    have hperm := ((perm_cons_filter hl hd).filter fun p => p.1 = d.1).symm
    have hothers : ((l.filter fun p => p.1 ≠ d.1).filter fun p => p.1 = d.1) = [] := by
      rw [List.filter_filter, List.filter_eq_nil_iff]
      simp
    rw [List.filter_cons_of_pos (by simp), hothers] at hperm
    exact List.perm_singleton.mp hperm

/-- Each function of a module has one entry in its table, so the entries for a symbol are one or
none. -/
theorem Tabled.coherent (h : m.Tabled) : m.Coherent := by
  have hnodup := h.nodup
  rw [functions, List.map_append, List.map_map, List.nodup_append] at hnodup
  obtain ⟨hdeclarations, hdefinitions, hdisjoint⟩ := hnodup
  refine ⟨hdefinitions, hdeclarations, fun f hf hd => ?_, fun symbol type => ?_⟩
  · exact hdisjoint f.label hd f.label (List.mem_map_of_mem (f := Prod.fst ∘ _) hf) rfl
  · exact (h.lookup symbol type).trans (filter_eq_singleton_iff h.nodup).symm

/-- What holds of a module and of all that is done to it. -/
structure WellKept (m : Module) : Prop extends Coherent m where
  /-- A symbol keeps its type. -/
  types (symbol : Label) (type : FuncType) : m.lookup symbol = some type →
    ∀ later, (m.performAll later).lookup symbol = some type
  /-- An operation that fails changes nothing. -/
  failed (op : Op) (fault : Fault) : (m.perform op).1 = .error fault → (m.perform op).2 = m
  succeeds (op : Op) : (m.perform op).1 = .ok () ↔ m.Admits op
  succeeded (op : Op) : (m.perform op).1 = .ok () → m.Enters op (m.perform op).2
  /-- A call that agrees with the symbol table still does so when a function has been defined. -/
  calls (f : Func) : (m.define f).1 = .ok () →
    ∀ call ∈ m.definitions.flatMap Func.calls, m.lookup call.1 = some call.2 →
      call ∈ (m.define f).2.definitions.flatMap Func.calls ∧
        (m.define f).2.lookup call.1 = some call.2

/-- Whatever is declared and defined in a new module, and whether that succeeds or fails, the module
is well kept afterwards. -/
theorem performAll_wellKept (name : String) (target : TargetDesc) (ops : List Op) :
    ((new name target).performAll ops).WellKept := by
  have hcoherent := ((tabled_new name target).performAll ops).coherent
  generalize (new name target).performAll ops = m at hcoherent ⊢
  have henters : ∀ op, (m.perform op).1 = .ok () → m.Enters op (m.perform op).2 :=
    fun op h => (perform_ok_iff.mp h).enters
  refine ⟨hcoherent, fun symbol type => lookup_performAll, fun op fault => perform_of_error,
    fun op => perform_ok_iff, henters, fun f hok call hcall hagrees => ?_⟩
  refine ⟨?_, lookup_perform hagrees (.define f)⟩
  have hdefinitions : (m.define f).2.definitions = m.definitions ++ [f] :=
    (henters (.define f) hok).definitions
  rw [hdefinitions, List.flatMap_append]
  exact List.mem_append_left _ hcall

/-- A function that calls these functions, none of which takes or returns anything. -/
def calling (label : Label) (callees : List Label) : Func where
  label := label
  type := ⟨[], .void⟩
  params := []
  blocks :=
    [⟨"entry", callees.map fun callee => .discard (.call callee ⟨[], .void⟩ [] []), .ret⟩]

/-- A function that is called before it is defined, declared at another type on the way, and defined
a second time. -/
def contested : List Op :=
  [.declare "g" ⟨[], .void⟩, .define (calling "f" ["g", "h"]), .declare "g" ⟨[.i32], .void⟩,
    .define (calling "g" []), .declare "g" ⟨[], .void⟩, .define (calling "g" ["f"])]

theorem performAll_contested :
    let m := (new "m" ⟨"", ""⟩).performAll contested
    m.WellKept ∧ m.declarations = [] ∧ m.definitions = [calling "f" ["g", "h"], calling "g" []] ∧
      (new "m" ⟨"", ""⟩).outcomes contested =
        [.ok (), .ok (), .error (.signatureMismatch "g" ⟨[], .void⟩ ⟨[.i32], .void⟩), .ok (),
          .ok (), .error (.duplicateSymbol "g")] :=
  ⟨performAll_wellKept _ _ _, by decide, by decide, rfl⟩

end TypedSSA.Module
