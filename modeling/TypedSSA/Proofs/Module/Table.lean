import Mathlib.Data.List.Nodup
import TypedSSA.Proofs.Module.Runs

/-!
# The symbol table of a module

In every module that declarations and definitions can make, no symbol is declared or defined twice,
and the symbol table has exactly what is declared or defined, at its type (`Module.Tabled`). A
declaration that a definition takes the place of is the only thing that ever goes, and its symbol
stays.
-/

namespace TypedSSA.Module

variable {P : Func → Prop} {m m' : Module} {op : Op} {r : Except Fault Unit × Module}

/-- The functions of a module with their types, those declared and then those defined. -/
def functions (m : Module) : List (Label × FuncType) :=
  m.declarations ++ m.definitions.map fun f => (f.label, f.type)

/-- The symbol table agrees with the functions of the module. -/
structure Tabled (m : Module) : Prop where
  nodup : (m.functions.map Prod.fst).Nodup
  lookup (symbol : Label) (type : FuncType) :
    m.lookup symbol = some type ↔ (symbol, type) ∈ m.functions

theorem tabled_new (name : String) (target : TargetDesc) : (new name target).Tabled :=
  ⟨List.nodup_nil, by simp [Module.lookup, functions, new]⟩

/-- A function that is new to the module. -/
theorem Tabled.insert (h : m.Tabled) {symbol : Label} {type : FuncType}
    (isNew : m.lookup symbol = none) (symbols : m'.symbols = (symbol, type) :: m.symbols)
    (functions : m'.functions.Perm ((symbol, type) :: m.functions)) : m'.Tabled := by
  have hnot : symbol ∉ m.functions.map Prod.fst := by
    intro hmem
    obtain ⟨p, hp, rfl⟩ := List.mem_map.mp hmem
    cases isNew.symm.trans ((h.lookup p.1 p.2).mpr hp)
  refine ⟨?_, fun s t => ?_⟩
  · rw [(functions.map Prod.fst).nodup_iff, List.map_cons, List.nodup_cons]
    exact ⟨hnot, h.nodup⟩
  · rw [functions.mem_iff, List.mem_cons, ← h.lookup, Prod.mk.injEq, Module.lookup, symbols,
      List.lookup_cons]
    cases hs : s == symbol with
    | true =>
      obtain rfl : s = symbol := eq_of_beq hs
      simp [isNew, eq_comm]
    | false =>
      have hne : s ≠ symbol := ne_of_beq_false hs
      simp [hne, Module.lookup]

/-- The same functions, in another order. -/
theorem Tabled.perm (h : m.Tabled) (symbols : m'.symbols = m.symbols)
    (functions : m'.functions.Perm m.functions) : m'.Tabled := by
  refine ⟨(functions.map Prod.fst).nodup_iff.mpr h.nodup, fun s t => ?_⟩
  rw [functions.mem_iff, ← h.lookup, Module.lookup, symbols]
  rfl

/-- A declaration put in front of the others is the list again, but for its order. -/
theorem perm_cons_filter {l : List (Label × FuncType)} (hl : (l.map Prod.fst).Nodup)
    {d : Label × FuncType} (hd : d ∈ l) : (d :: l.filter fun e => e.1 ≠ d.1).Perm l := by
  obtain ⟨l₁, l₂, rfl⟩ := List.append_of_mem hd
  rw [List.map_append, List.map_cons, List.nodup_middle, List.nodup_cons, ← List.map_append] at hl
  have hothers : ∀ e ∈ l₁ ++ l₂, decide (e.1 ≠ d.1) = true := fun e he =>
    decide_eq_true fun heq => hl.1 (heq ▸ List.mem_map_of_mem he)
  have hfilter : ((l₁ ++ d :: l₂).filter fun e => e.1 ≠ d.1) = l₁ ++ l₂ := by
    rw [List.filter_append, List.filter_cons_of_neg (by simp), ← List.filter_append,
      List.filter_eq_self.mpr hothers]
  rw [hfilter]
  exact List.perm_middle.symm

/-- A function that is known and not defined has been declared. -/
theorem Tabled.mem_declarations (h : m.Tabled) {symbol : Label} {type : FuncType}
    (isKnown : m.lookup symbol = some type)
    (isUndefined : symbol ∉ m.definitions.map Func.label) : (symbol, type) ∈ m.declarations := by
  rw [h.lookup] at isKnown
  refine (List.mem_append.mp isKnown).resolve_right fun hmem => isUndefined ?_
  obtain ⟨f, hf, heq⟩ := List.mem_map.mp hmem
  exact List.mem_map.mpr ⟨f, hf, congrArg Prod.fst heq⟩

/-- Either the functions of the module are the same but for their order, or there is one that is new
to the table too. -/
theorem Tabled.effect (h : m.Tabled) (he : Effect m op r) : r.2.Tabled := by
  cases he with
  | duplicate | mismatch | redeclare => exact h
  | declare symbol type isNew =>
    refine h.insert isNew rfl ?_
    show (m.declarations ++ [(symbol, type)] ++ m.definitions.map _).Perm _
    rw [List.append_assoc, List.singleton_append]
    exact List.perm_middle
  | define f isUndefined isNew =>
    refine h.insert isNew rfl ?_
    show (m.declarations ++ (m.definitions ++ [f]).map _).Perm _
    rw [List.map_append, ← List.append_assoc]
    exact List.perm_append_comm
  | complete f isUndefined isKnown =>
    refine h.perm rfl ?_
    have hnodup : (m.declarations.map Prod.fst).Nodup := by
      have := h.nodup
      rw [functions, List.map_append] at this
      exact (List.nodup_append.mp this).1
    show (m.declarations.filter _ ++ (m.definitions ++ [f]).map _).Perm
      (m.declarations ++ m.definitions.map _)
    rw [List.map_append, ← List.append_assoc]
    refine List.perm_append_comm.trans ?_
    rw [List.map_singleton, List.singleton_append, ← List.cons_append]
    exact (perm_cons_filter hnodup (h.mem_declarations isKnown isUndefined)).append_right _

theorem Tabled.performAll (h : m.Tabled) (ops : List Op) : (m.performAll ops).Tabled := by
  induction ops generalizing m with
  | nil => exact h
  | cons op ops ih => exact ih (h.effect (m.effect_perform op))

theorem Reachable.tabled (h : m.Reachable P) : m.Tabled := by
  induction h with
  | new name target => exact tabled_new name target
  | @declare m _ symbol type ih => exact ih.effect (m.effect_declare symbol type)
  | @define m _ f _ ih => exact ih.effect (m.effect_define f)

/-- The functions that are declared or defined. -/
def symbolNames (m : Module) : List Label :=
  m.declarations.map Prod.fst ++ m.definitions.map Func.label

/-- In a module that passes validation, what is called is declared or defined. -/
theorem Tabled.mem_symbolNames_of_call (h : m.Tabled) (hv : m.validate = .ok ()) {f : Func}
    (hf : f ∈ m.definitions) {call : Label × FuncType} (hc : call ∈ f.calls) :
    call.1 ∈ m.symbolNames := by
  have hnames : m.symbolNames = m.functions.map Prod.fst := by
    rw [functions, List.map_append, List.map_map]
    rfl
  rw [hnames]
  exact List.mem_map_of_mem ((h.lookup _ _).mp (lookup_of_call hv hf hc))

end TypedSSA.Module
