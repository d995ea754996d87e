import Mathlib.Algebra.Ring.Int.Defs
import Mathlib.Data.Nat.Cast.Basic
import TypedSSA.Proofs.LLVM.Rules
import TypedSSA.Proofs.LLVM.Trace

/-!
# Integer constants

An integer is handed over to LLVM as a word of 64 bits, of which LLVM keeps as many as the type has
(`Val.kept?`). Nothing is lost by that if the integer is in the range of the type, since then the
bits that are kept encode it (`Scalar.decode_setWidth`), and two words of a type that encode one
integer are the same. So the cases of a switch, which are checked as integers, stay different ones
as words, and a word is that of a case if it encodes the integer of the case
(`Site.lowerTerminator_cases`).

The bounds of the range are computed in words of 128 bits, where no step overflows
(`Scalar.wordBounds`).
-/

namespace TypedSSA

/-- The low bits of a word are the same however wide the word is. -/
theorem setWidth_ofInt {w k : Nat} (h : w ≤ k) (v : Int) :
    (BitVec.ofInt k v).setWidth w = BitVec.ofInt w v := by
  rw [← BitVec.signExtend_eq_setWidth_of_le _ h]
  refine BitVec.eq_of_toInt_eq ?_
  rw [BitVec.toInt_signExtend, BitVec.toInt_ofInt, BitVec.toInt_ofInt, Nat.min_eq_left h,
    Int.bmod_bmod_of_dvd (Nat.pow_dvd_pow 2 h)]

namespace Scalar

variable {t : Scalar} {v : Int}

/-! ## Ranges -/

/-- The exponent of the power of two that the bounds of an integral type are made of. -/
def exponent (t : Scalar) : Nat := if t.isSigned then t.width - 1 else t.width

/-- That power as a word. -/
def wordPower (t : Scalar) : BitVec 128 := 1#128 <<< t.exponent

def wordMin (t : Scalar) : BitVec 128 := if t.isSigned then -t.wordPower else 0

def wordMax (t : Scalar) : BitVec 128 := t.wordPower - 1

/-- Computed in words, the bounds are those of the type, and no step on the way overflows. -/
structure WordBounds (t : Scalar) : Prop where
  shift : t.exponent < 128 ∧ t.wordPower.toInt = 2 ^ t.exponent
  neg : t.wordPower.negOverflow = false
  sub : t.wordPower.ssubOverflow 1 = false
  min : t.wordMin.toInt = t.minInt
  max : t.wordMax.toInt = t.maxInt

theorem wordBounds (h : t.isIntegral = true) : t.WordBounds := by
  cases t with
  | bool | f32 | f64 => cases h
  | _ => exact ⟨by decide, by decide, by decide, by decide, by decide⟩

/-- So it can be told in words whether an integer is one of the type. -/
theorem hasInt_eq_sle (h : t.isIntegral = true) (v : BitVec 128) :
    t.hasInt v.toInt = (t.wordMin.sle v && v.sle t.wordMax) := by
  rw [hasInt, h, Bool.true_and, ← (wordBounds h).min, ← (wordBounds h).max]
  rfl

/-- The integers of an integral type. -/
def InRange (t : Scalar) (v : Int) : Prop :=
  if t.isSigned then -2 ^ (t.width - 1) ≤ v ∧ v ≤ 2 ^ (t.width - 1) - 1
  else 0 ≤ v ∧ v ≤ 2 ^ t.width - 1

theorem hasInt_iff (h : t.isIntegral = true) : t.hasInt v = true ↔ t.InRange v := by
  simp only [hasInt, h, Bool.true_and, Bool.and_eq_true, decide_eq_true_iff, InRange, minInt,
    maxInt, Nat.one_shiftLeft, Nat.cast_pow, Nat.cast_ofNat]
  split <;> rfl

/-! ## Words -/

/-- The integer that a word of the type stands for. -/
def decode (t : Scalar) (x : BitVec t.width) : Int := if t.isSigned then x.toInt else x.toNat

theorem decode_injective (t : Scalar) : Function.Injective t.decode := by
  intro x y h
  unfold decode at h
  split at h
  · exact BitVec.eq_of_toInt_eq h
  · exact BitVec.eq_of_toNat_eq (Int.ofNat_inj.mp h)

theorem width_le (t : Scalar) : 0 < t.width ∧ t.width ≤ 64 := by
  cases t <;> decide

/-- The low bits of an integer of the type encode it. -/
theorem decode_setWidth (h : t.InRange v) :
    t.decode ((BitVec.ofInt 64 v).setWidth t.width) = v := by
  rw [setWidth_ofInt t.width_le.2, decode]
  unfold InRange at h
  split at h
  · rw [if_pos ‹_›]
    exact BitVec.toInt_ofInt_eq_self t.width_le.1 h.1 (by omega)
  · have hlt : v < ((2 ^ t.width : Nat) : Int) := by
      rw [Nat.cast_pow]
      exact Int.lt_of_le_sub_one h.2
    rw [if_neg ‹_›, BitVec.toNat_ofInt, Int.emod_eq_of_lt h.1 hlt, Int.toNat_of_nonneg h.1]

end Scalar

/-! ## Cases -/

theorem firstRepeat_eq_none_iff {α : Type} [DecidableEq α] {seen l : List α} :
    firstRepeat seen l = none ↔ l.Nodup ∧ ∀ x ∈ l, x ∉ seen := by
  induction l generalizing seen with
  | nil => simp [firstRepeat]
  | cons x l ih =>
    rw [firstRepeat, List.nodup_cons, List.forall_mem_cons]
    split
    · rename_i hx
      simp [hx]
    · rename_i hx
      rw [ih]
      simp only [List.mem_cons, not_or]
      grind

/-- Cases pass the check if no two have one value. -/
theorem checkDistinctCases_eq_ok_iff {cases : List (Const × Label)} :
    checkDistinctCases cases = .ok () ↔ (cases.map Prod.fst).Nodup := by
  have hrepeat : firstRepeat [] (cases.map (·.1)) = none ↔ (cases.map Prod.fst).Nodup := by
    rw [firstRepeat_eq_none_iff]
    exact and_iff_left fun x _ => List.not_mem_nil
  rw [← hrepeat, checkDistinctCases]
  cases firstRepeat [] (cases.map (·.1)) <;> simp

/-- Only integers fit an integral type. -/
theorem Const.exists_int_of_fits {t : Scalar} {c : Const} (ht : t.isIntegral = true)
    (h : c.fits t = true) : ∃ v, c = .int v ∧ t.InRange v := by
  cases c with
  | int v => exact ⟨v, rfl, (Scalar.hasInt_iff ht).mp h⟩
  | bool b =>
    cases t with
    | bool => cases ht
    | _ => cases h
  | float x =>
    cases t with
    | f32 | f64 => cases ht
    | _ => cases h

namespace LLVM

open Lower

/-- The bits that LLVM keeps of an integer constant of this width: the low ones of the word that it
is made from. -/
def Val.kept? (width : Nat) : Val → Option (BitVec width)
  | int ty word => if ty = .int width then some (word.setWidth width) else none
  | _ => none

theorem kept?_constVal {t : Scalar} (ht : t.isIntegral = true) (v : Int) :
    (constVal t (.int v)).kept? t.width = some ((BitVec.ofInt 64 v).setWidth t.width) := by
  rw [constVal, Ty.ofScalar_of_isIntegral ht]
  exact if_pos rfl

/-- The case that is added to a switch. -/
def Call.case? : Call → Option (Val × BlockRef)
  | addCase value target => some (value, target)
  | _ => none

namespace Site

/-- What is added to a switch on a value of type `t` for a case. -/
def caseOf (site : Site) (t : Scalar) (c : Const × Label) : Val × BlockRef :=
  (constVal t c.1, ⟨site.function, c.2⟩)

/-- However lowering a switch ends, some of its cases have been added to it, from the first one
on. -/
theorem lowerSwitch_emits (site : Site) (locals : Locals) (scrutinee : Value) (default : Label)
    (cases : List (Const × Label)) :
    (site.lowerTerminator locals (.switch scrutinee default cases)).Emits
      (fun _ calls => calls.filterMap Call.case? = cases.map (site.caseOf scrutinee.ty))
      (fun calls => ∃ added, added <+: cases ∧
        calls.filterMap Call.case? = added.map (site.caseOf scrutinee.ty)) := by
  refine (lowerValue_quiet scrutinee).bind (fun v _ => (block_quiet default).bind
    (fun d _ => ?_) ⟨[], List.nil_prefix, rfl⟩) ⟨[], List.nil_prefix, rfl⟩
  have hswitch : (site.finish (.switch v d cases.length)).Emits
      (fun _ calls => calls.filterMap Call.case? = []) fun _ => False := Emits.finish rfl rfl
  refine hswitch.bind (fun _ first hfirst => ?_) fun _ h => h.elim
  refine Emits.forM (fun done calls => (first ++ calls).filterMap Call.case? =
    done.map (site.caseOf scrutinee.ty)) (by rw [List.append_nil, hfirst, List.map_nil])
    fun done c rest calls hcases hdone => ?_
  refine (block_quiet c.2).bind (fun b hb => Emits.call rfl ?_) ⟨done, ?_, ?_⟩
  · rw [← List.append_assoc, List.filterMap_append, hdone, List.map_append, hb]
    rfl
  · exact hcases ▸ List.prefix_append done _
  · rw [List.append_nil, hdone]

end Site

/-- A case as it is added to a switch on a value of type `t`: the bits that are kept of its constant
are those of a word just if the word stands for the integer of the case. -/
structure CaseAdded (function : Label) (t : Scalar) (c : Const × Label) (added : Val × BlockRef) :
    Prop where
  target : added.2 = ⟨function, c.2⟩
  value : ∃ v x, c.1 = .int v ∧ added.1.kept? t.width = some x ∧ ∀ y, y = x ↔ t.decode y = v

theorem caseAdded_caseOf {t : Scalar} (ht : t.isIntegral = true) (site : Site)
    {c : Const × Label} (h : c.1.fits t = true) :
    CaseAdded site.function t c (site.caseOf t c) := by
  obtain ⟨v, hv, hrange⟩ := Const.exists_int_of_fits ht h
  refine ⟨rfl, v, _, hv, hv ▸ kept?_constVal ht v, fun y => ?_⟩
  rw [← t.decode_injective.eq_iff, Scalar.decode_setWidth hrange]

/-- Constants that are different integers are different words. -/
theorem nodup_kept? {t : Scalar} (ht : t.isIntegral = true) {consts : List Const}
    (hfits : ∀ c ∈ consts, c.fits t = true) (hnodup : consts.Nodup) :
    (consts.map fun c => (constVal t c).kept? t.width).Nodup := by
  refine List.Nodup.map_on (fun c hc c' hc' heq => ?_) hnodup
  obtain ⟨v, rfl, hv⟩ := Const.exists_int_of_fits ht (hfits c hc)
  obtain ⟨v', rfl, hv'⟩ := Const.exists_int_of_fits ht (hfits c' hc')
  rw [kept?_constVal ht, kept?_constVal ht, Option.some.injEq] at heq
  rw [← Scalar.decode_setWidth hv, heq, Scalar.decode_setWidth hv']

/-- The cases added to a switch that has been checked. -/
structure SwitchCases (function : Label) (t : Scalar) (cases : List (Const × Label))
    (run : Emitted (Except CodegenError Unit)) : Prop where
  added : ∃ done, done <+: cases ∧ (run.value = .ok () → done = cases) ∧
    List.Forall₂ (CaseAdded function t) done (run.calls.filterMap Call.case?)
  distinct : ((run.calls.filterMap Call.case?).map fun c => c.1.kept? t.width).Nodup

theorem Site.lowerTerminator_cases {result : TypedSSA.Ty} {scrutinee : Value} {default : Label}
    {cases : List (Const × Label)}
    (h : (Terminator.switch scrutinee default cases).check result = .ok ()) (site : Site)
    (locals : Locals) (replies : Replies) (counters : Counters) :
    SwitchCases site.function scrutinee.ty cases
      ((site.lowerTerminator locals (.switch scrutinee default cases)).run replies counters) := by
  cases Terminator.check_eq_ok_iff.mp h with
  | switch ht hfits hdistinct =>
    rw [checkDistinctCases_eq_ok_iff] at hdistinct
    obtain ⟨-, hok, hfailed⟩ :=
      site.lowerSwitch_emits locals scrutinee default cases replies counters
    generalize
      (site.lowerTerminator locals (.switch scrutinee default cases)).run replies counters = run
      at hok hfailed
    obtain ⟨done, hdone, hall, hcalls⟩ : ∃ done, done <+: cases ∧
        (run.value = .ok () → done = cases) ∧
        run.calls.filterMap Call.case? = done.map (site.caseOf scrutinee.ty) := by
      cases hvalue : run.value with
      | ok u => exact ⟨cases, List.prefix_rfl, fun _ => rfl, hok u hvalue⟩
      | error e =>
        obtain ⟨done, hdone, hcalls⟩ := hfailed e hvalue
        exact ⟨done, hdone, fun hok => (by cases hok), hcalls⟩
    refine ⟨⟨done, hdone, hall, ?_⟩, ?_⟩
    · rw [hcalls, List.forall₂_map_right_iff, List.forall₂_same]
      exact fun c hc => caseAdded_caseOf ht site (hfits c (hdone.subset hc))
    · rw [hcalls, List.map_map]
      have hnodup : (done.map Prod.fst).Nodup := hdistinct.sublist (hdone.sublist.map _)
      have := nodup_kept? ht (List.forall_mem_map.mpr fun c hc => hfits c (hdone.subset hc)) hnodup
      rwa [List.map_map] at this

/-- Of each integral type: its bounds are computed without overflow, the integers between them fit,
and no others, and each of those can be read off the bits that LLVM keeps of its constant. Hence no
two cases of a switch that passes the check become one, and a word is that of a case just if it
stands for the integer of the case. -/
theorem constants_survive {t : Scalar} (ht : t.isIntegral = true) :
    t.WordBounds ∧
    (∀ v : BitVec 128, (Const.int v.toInt).fits t = (t.wordMin.sle v && v.sle t.wordMax) ∧
      constVal t (.int v.toInt) = .int (.int t.width) (v.setWidth 64)) ∧
    (∀ v : Int, (Const.int v).fits t = true ↔ t.InRange v) ∧
    (∀ v : Int, (Const.int v).fits t = true →
      ∃ x, (constVal t (.int v)).kept? t.width = some x ∧ t.decode x = v) ∧
    ∀ (result : TypedSSA.Ty) (scrutinee : Value) (default : Label) (cases : List (Const × Label)),
      scrutinee.ty = t → (Terminator.switch scrutinee default cases).check result = .ok () →
      ∀ (site : Site) (locals : Locals) (replies : Replies) (counters : Counters),
        SwitchCases site.function t cases ((site.lowerTerminator locals
          (.switch scrutinee default cases)).run replies counters) := by
  refine ⟨Scalar.wordBounds ht, fun v => ⟨Scalar.hasInt_eq_sle ht v, ?_⟩,
    fun v => Scalar.hasInt_iff ht, fun v h => ?_, ?_⟩
  · rw [constVal, Ty.ofScalar_of_isIntegral ht, ← setWidth_ofInt (by decide : 64 ≤ 128),
      BitVec.ofInt_toInt]
  · exact ⟨_, kept?_constVal ht v, Scalar.decode_setWidth ((Scalar.hasInt_iff ht).mp h)⟩
  · rintro result scrutinee default cases rfl h site locals replies counters
    exact site.lowerTerminator_cases h locals replies counters

/-- The integers of `i8` that are next to each other as words, as cases. -/
def extremes : List (Const × Label) :=
  [(.int (-128), "a"), (.int 127, "b"), (.int (-1), "a"), (.int 0, "b")]

/-- A switch on the first parameter, lowered. -/
def extremesRun : Emitted (Except CodegenError Unit) :=
  (Site.lowerTerminator ⟨"f", 0, ["a", "b"], []⟩ [(.number 0, .param "f" 0)]
    (.switch (.loc .i8 (.number 0) none) "a" extremes)).run {} {}

/-- The greatest integer of all types is read back from a word of ones, and in a switch the bounds
of a signed type stay apart. -/
theorem constants_survive_extremes :
    (∃ x, (constVal .u64 (.int (2 ^ 64 - 1))).kept? 64 = some x ∧
      Scalar.u64.decode x = 2 ^ 64 - 1) ∧
    SwitchCases "f" .i8 extremes extremesRun ∧
    extremesRun.calls.filterMap Call.case? =
      [(.int (.int 8) 0xffffffffffffff80, ⟨"f", "a"⟩), (.int (.int 8) 0x7f, ⟨"f", "b"⟩),
        (.int (.int 8) 0xffffffffffffffff, ⟨"f", "a"⟩), (.int (.int 8) 0, ⟨"f", "b"⟩)] := by
  obtain ⟨-, -, -, hkept, -⟩ := constants_survive (t := .u64) (by decide)
  obtain ⟨-, -, -, -, hcases⟩ := constants_survive (t := .i8) (by decide)
  exact ⟨hkept _ (by decide), hcases .void (.loc .i8 (.number 0) none) "a" extremes rfl (by decide)
    ⟨"f", 0, ["a", "b"], []⟩ [(.number 0, .param "f" 0)] {} {}, by decide⟩

end LLVM

end TypedSSA
