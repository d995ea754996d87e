import Mathlib.Data.List.Induction
import TypedSSA.Proofs.Module.Operations

/-!
# Assembling a module

Declarations and definitions may come in any order. Whether all of them succeed can be told from
which they are (`Module.Compatible`), and so can what is in the module when they do
(`Module.Holds`). Neither says anything of their order.
-/

namespace TypedSSA.Module

variable {m m' : Module} {op : Op} {ops ops' : List Op}

theorem performAll_concat (m : Module) (ops : List Op) (op : Op) :
    m.performAll (ops ++ [op]) = ((m.performAll ops).perform op).2 := by
  rw [performAll, List.foldl_append]
  rfl

/-- All of the operations succeed. -/
def Succeeds (m : Module) (ops : List Op) : Prop := ∀ outcome ∈ m.outcomes ops, outcome = .ok ()

/-- The last operation succeeds if the module that the others leave admits it. -/
theorem succeeds_concat (m : Module) (ops : List Op) (op : Op) :
    m.Succeeds (ops ++ [op]) ↔ m.Succeeds ops ∧ (m.performAll ops).Admits op := by
  induction ops generalizing m with
  | nil => simp [Succeeds, outcomes, performAll, perform_ok_iff]
  | cons first ops ih =>
    have hcons : ∀ l, m.Succeeds (first :: l) ↔
        (m.perform first).1 = .ok () ∧ (m.perform first).2.Succeeds l := fun l =>
      List.forall_mem_cons
    rw [List.cons_append, hcons, hcons, ih, and_assoc]
    rfl

/-! ## What does not depend on order -/

/-- The functions defined, in order. -/
def defined (ops : List Op) : List Func := ops.filterMap Op.func?

theorem mem_defined_iff {f : Func} : f ∈ defined ops ↔ .define f ∈ ops := by
  rw [defined, List.mem_filterMap]
  constructor
  · rintro ⟨op, hop, hf⟩
    cases op with
    | declare => cases hf
    | define g => exact Option.some.inj hf ▸ hop
  · exact fun h => ⟨_, h, rfl⟩

theorem defined_concat : defined (ops ++ [op]) = defined ops ++ op.func?.toList := by
  rw [defined, List.filterMap_append]
  cases op <;> rfl

/-- The operation agrees with the others: its symbol has one type, and is not defined twice. -/
structure Fits (op : Op) (ops : List Op) : Prop where
  type (other : Op) : other ∈ ops → other.symbol = op.symbol → other.type = op.type
  undefined (f : Func) : op.func? = some f → f.label ∉ (defined ops).map Func.label

/-- A symbol has one type throughout, and is defined once at most. -/
structure Compatible (ops : List Op) : Prop where
  types (op other : Op) : op ∈ ops → other ∈ ops → other.symbol = op.symbol → other.type = op.type
  definitions : ((defined ops).map Func.label).Nodup

theorem Compatible.perm (h : Compatible ops) (hperm : ops.Perm ops') : Compatible ops' where
  types op other hop hother := h.types op other (hperm.mem_iff.mpr hop) (hperm.mem_iff.mpr hother)
  definitions := ((hperm.filterMap Op.func?).map Func.label).nodup_iff.mp h.definitions

/-- One more operation is compatible with the others if it fits each of them. -/
theorem compatible_concat : Compatible (ops ++ [op]) ↔ Compatible ops ∧ Fits op ops := by
  constructor
  · intro h
    have hdefinitions := h.definitions
    rw [defined_concat, List.map_append, List.nodup_append] at hdefinitions
    refine ⟨⟨fun first other hfirst hother => ?_, hdefinitions.1⟩, fun other hother => ?_,
      fun f hf hmem => ?_⟩
    · exact h.types first other (List.mem_append_left _ hfirst) (List.mem_append_left _ hother)
    · exact h.types op other List.mem_concat_self (List.mem_append_left _ hother)
    · exact hdefinitions.2.2 _ hmem f.label (by simp [hf]) rfl
  · rintro ⟨hops, hop⟩
    refine ⟨fun first other hfirst hother hsymbol => ?_, ?_⟩
    · rw [List.mem_append, List.mem_singleton] at hfirst hother
      rcases hfirst with hfirst | rfl <;> rcases hother with hother | rfl
      · exact hops.types first other hfirst hother hsymbol
      · exact (hop.type first hfirst hsymbol.symm).symm
      · exact hop.type other hother hsymbol
      · rfl
    · rw [defined_concat, List.map_append, List.nodup_append]
      refine ⟨hops.definitions, ?_, fun label hlabel other hother => ?_⟩
      · cases op.func? <;> simp
      · rintro rfl
        obtain ⟨f, hf, rfl⟩ := List.mem_map.mp hother
        exact hop.undefined f (Option.mem_toList.mp hf) hlabel

/-- What is in the module is what the operations say. -/
structure Holds (m : Module) (ops : List Op) : Prop where
  lookup (symbol : Label) (type : FuncType) :
    m.lookup symbol = some type ↔ ∃ op ∈ ops, op.symbol = symbol ∧ op.type = type
  definitions : m.definitions = defined ops

/-- A module that holds what operations say admits another if that fits them. This is where what the
module has at the moment and what the operations say come together. -/
theorem Holds.admits_iff (h : m.Holds ops) : m.Admits op ↔ Fits op ops := by
  have hundefined : (∀ f, op.func? = some f → f.label ∉ m.definitions.map Func.label) ↔
      ∀ f, op.func? = some f → f.label ∉ (defined ops).map Func.label := by
    rw [h.definitions]
  constructor
  · intro hadmits
    refine ⟨fun other hother hsymbol => ?_, hundefined.mp hadmits.undefined⟩
    exact hadmits.eq_of_lookup ((h.lookup _ _).mpr ⟨other, hother, hsymbol, rfl⟩)
  · intro hfits
    refine ⟨?_, hundefined.mpr hfits.undefined⟩
    cases hknown : m.lookup op.symbol with
    | none => exact .inl rfl
    | some known =>
      obtain ⟨other, hother, hsymbol, rfl⟩ := (h.lookup _ _).mp hknown
      exact .inr (congrArg some (hfits.type other hother hsymbol))

theorem holds_new (name : String) (target : TargetDesc) : (new name target).Holds [] :=
  ⟨fun symbol type => by simp [Module.lookup, new], rfl⟩

theorem Holds.perform (h : m.Holds ops) (hadmits : m.Admits op) :
    (m.perform op).2.Holds (ops ++ [op]) := by
  refine ⟨fun symbol type => ?_, ?_⟩
  · rw [hadmits.enters.lookup]
    have hconcat : (∃ other ∈ ops ++ [op], other.symbol = symbol ∧ other.type = type) ↔
        (∃ other ∈ ops, other.symbol = symbol ∧ other.type = type) ∨
          op.symbol = symbol ∧ op.type = type := by
      simp [or_and_right, exists_or]
    rw [hconcat, ← h.lookup]
    split
    · rename_i hsymbol
      subst hsymbol
      constructor
      · exact fun htype => .inr ⟨rfl, Option.some.inj htype⟩
      · rintro (hknown | ⟨-, rfl⟩)
        · rw [hadmits.eq_of_lookup hknown]
        · rfl
    · rename_i hsymbol
      simp [Ne.symm hsymbol]
  · rw [hadmits.enters.definitions, h.definitions, defined_concat]

/-- Operations that are compatible, and no others, all succeed on a new module, which then holds
what they say. -/
theorem succeeds_iff_compatible (name : String) (target : TargetDesc) (ops : List Op) :
    ((new name target).Succeeds ops ↔ Compatible ops) ∧
      (Compatible ops → ((new name target).performAll ops).Holds ops) := by
  induction ops using List.reverseRecOn with
  | nil =>
    refine ⟨iff_of_true (fun _ h => (List.not_mem_nil h).elim) ⟨?_, List.nodup_nil⟩, fun _ => ?_⟩
    · exact fun _ _ h => (List.not_mem_nil h).elim
    · exact holds_new name target
  | append_singleton ops op ih =>
    obtain ⟨hsucceeds, hholds⟩ := ih
    rw [succeeds_concat, compatible_concat, hsucceeds, performAll_concat]
    have hadmits (h : Compatible ops) :
        ((new name target).performAll ops).Admits op ↔ Fits op ops := (hholds h).admits_iff
    exact ⟨and_congr_right hadmits, fun h => (hholds h.1).perform ((hadmits h.1).mpr h.2)⟩

/-! ## Modules alike -/

/-- The same symbols, definitions and declarations, but for their order. -/
structure Alike (m m' : Module) : Prop where
  lookup (symbol : Label) : m.lookup symbol = m'.lookup symbol
  definitions : m.definitions.Perm m'.definitions
  declarations : m.declarations.Perm m'.declarations

theorem Tabled.mem_declarations_iff (h : m.Tabled) {d : Label × FuncType} :
    d ∈ m.declarations ↔ m.lookup d.1 = some d.2 ∧ d.1 ∉ m.definitions.map Func.label := by
  refine ⟨fun hd => ⟨(h.lookup _ _).mpr (List.mem_append_left _ hd), fun hlabel => ?_⟩,
    fun hd => h.mem_declarations hd.1 hd.2⟩
  obtain ⟨f, hf, hlabel⟩ := List.mem_map.mp hlabel
  exact h.coherent.disjoint f hf (hlabel ▸ List.mem_map_of_mem hd)

/-- Declarations need no argument of their own: they are what is known and not defined, in any
module whose table is in order. -/
theorem Tabled.alike (h : m.Tabled) (h' : m'.Tabled)
    (lookup : ∀ symbol, m.lookup symbol = m'.lookup symbol)
    (definitions : m.definitions.Perm m'.definitions) : m.Alike m' := by
  refine ⟨lookup, definitions, ?_⟩
  refine (List.perm_ext_iff_of_nodup h.coherent.declarations.of_map
    h'.coherent.declarations.of_map).mpr fun d => ?_
  rw [h.mem_declarations_iff, h'.mem_declarations_iff, lookup,
    (definitions.map Func.label).mem_iff]

theorem validate_eq_ok_iff : m.validate = .ok () ↔
    ∀ f ∈ m.definitions, ∀ call ∈ f.calls, m.lookup call.1 = some call.2 := by
  refine ⟨fun hv f hf call hcall => lookup_of_call hv hf hcall, fun h => ?_⟩
  have hnone : (m.definitions.flatMap Func.calls).findSome? m.callFault? = none := by
    refine List.findSome?_eq_none_iff.mpr fun call hcall => ?_
    obtain ⟨f, hf, hcall⟩ := List.mem_flatMap.mp hcall
    simp [callFault?, h f hf call hcall]
  rw [validate, hnone]

theorem Alike.validate_iff (h : m.Alike m') : m.validate = .ok () ↔ m'.validate = .ok () := by
  simp only [validate_eq_ok_iff, h.definitions.mem_iff, h.lookup]

theorem Holds.lookup_eq (h : m.Holds ops) (h' : m'.Holds ops') (hperm : ops.Perm ops')
    (symbol : Label) : m.lookup symbol = m'.lookup symbol := by
  refine Option.ext fun type => ?_
  simp only [h.lookup, h'.lookup, hperm.mem_iff]

/-- What is declared is what has been declared and not defined. -/
theorem Holds.mem_declarations_iff (h : m.Holds ops) (htabled : m.Tabled) {d : Label × FuncType} :
    d ∈ m.declarations ↔ .declare d.1 d.2 ∈ ops ∧ ∀ f, .define f ∈ ops → f.label ≠ d.1 := by
  have hlabel : d.1 ∉ m.definitions.map Func.label ↔ ∀ f, .define f ∈ ops → f.label ≠ d.1 := by
    simp [h.definitions, mem_defined_iff]
  rw [htabled.mem_declarations_iff, h.lookup, hlabel]
  refine and_congr_left fun hundefined => ⟨?_, fun hd => ⟨_, hd, rfl, rfl⟩⟩
  rintro ⟨op, hop, hsymbol, htype⟩
  cases op with
  | declare symbol type => exact hsymbol ▸ htype ▸ hop
  | define f => exact (hundefined f hop hsymbol).elim

/-- In whatever order operations are performed on a new module, they all succeed or they do not, and
if they do the module is the same, but for order. -/
theorem performAll_perm (name : String) (target : TargetDesc) (hperm : ops.Perm ops') :
    ((new name target).Succeeds ops ↔ (new name target).Succeeds ops') ∧
    ((new name target).Succeeds ops →
      ((new name target).performAll ops).Alike ((new name target).performAll ops') ∧
      (∀ d, d ∈ ((new name target).performAll ops).declarations ↔
        .declare d.1 d.2 ∈ ops ∧ ∀ f, .define f ∈ ops → f.label ≠ d.1) ∧
      (((new name target).performAll ops).validate = .ok () ↔
        ((new name target).performAll ops').validate = .ok ())) := by
  obtain ⟨hsucceeds, hholds⟩ := succeeds_iff_compatible name target ops
  obtain ⟨hsucceeds', hholds'⟩ := succeeds_iff_compatible name target ops'
  have htabled (l : List Op) := (tabled_new name target).performAll l
  refine ⟨?_, fun hall => ?_⟩
  · rw [hsucceeds, hsucceeds']
    exact ⟨fun h => h.perm hperm, fun h => h.perm hperm.symm⟩
  · have hcompatible := hsucceeds.mp hall
    have h := hholds hcompatible
    have h' := hholds' (hcompatible.perm hperm)
    have hdefinitions : ((new name target).performAll ops).definitions.Perm
        ((new name target).performAll ops').definitions := by
      rw [h.definitions, h'.definitions]
      exact hperm.filterMap Op.func?
    have halike := (htabled ops).alike (htabled ops') (h.lookup_eq h' hperm) hdefinitions
    exact ⟨halike, fun d => h.mem_declarations_iff (htabled ops), halike.validate_iff⟩

/-- A function that calls two others, of which one is declared before it and defined after it, and
the other is only declared, twice. -/
def assembled : List Op :=
  [.declare "g" ⟨[], .void⟩, .declare "h" ⟨[], .void⟩, .define (calling "f" ["g", "h"]),
    .define (calling "g" []), .declare "h" ⟨[], .void⟩]

theorem performAll_assembled_reverse :
    assembled.Perm assembled.reverse ∧
    (new "m" ⟨"", ""⟩).Succeeds assembled ∧
    (new "m" ⟨"", ""⟩).Succeeds assembled.reverse ∧
    ((new "m" ⟨"", ""⟩).performAll assembled).Alike
      ((new "m" ⟨"", ""⟩).performAll assembled.reverse) ∧
    ((new "m" ⟨"", ""⟩).performAll assembled.reverse).validate = .ok () := by
  have hperm : assembled.Perm assembled.reverse := assembled.reverse_perm.symm
  have houtcomes : (new "m" ⟨"", ""⟩).outcomes assembled = List.replicate 5 (.ok ()) := rfl
  have hall : (new "m" ⟨"", ""⟩).Succeeds assembled := fun outcome h =>
    List.eq_of_mem_replicate (houtcomes ▸ h)
  obtain ⟨hsucceeds, hsame⟩ := performAll_perm "m" ⟨"", ""⟩ hperm
  obtain ⟨halike, -, hvalidate⟩ := hsame hall
  exact ⟨hperm, hall, hsucceeds.mp hall, halike, hvalidate.mp rfl⟩

end TypedSSA.Module
