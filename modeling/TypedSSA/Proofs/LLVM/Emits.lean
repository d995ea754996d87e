import Mathlib.Data.List.Nodup
import TypedSSA.Proofs.LLVM.Outcome

/-!
# The calls that a computation makes

`Lower.Emits x ok failed` says what calls `x` makes, whatever LLVM replies: with `ok` of them and of
the value if it gives one, with `failed` of them if it fails. There is one rule for each way that
computations are put together; the one for lists has an invariant of the elements done and the calls
made for them. `Lower.Quiet` is the case of no calls at all.

On top of that, the results of the instructions built are always numbered in the order of the calls,
without gaps (`Numbered`), so that no two instructions have one result.
-/

namespace TypedSSA.LLVM

/-- The value that an instruction gives, if it gives one. -/
def Build.result? : Build → Option Val
  | binary _ _ _ result => some result
  | cast _ _ _ result => some result
  | icmp _ _ _ result => some result
  | fcmp _ _ _ result => some result
  | select _ _ _ result => some result
  | phi _ result => some result
  | call _ _ _ result => some result
  | _ => none

/-- The value that a call to LLVM returns, of the kind that instructions give. -/
def Call.result? : Call → Option Val
  | build _ instruction => instruction.result?
  | _ => none

/-- The results of these calls are numbered from `first` up to, and without, `last`. -/
def Numbered (first last : Nat) (calls : List Call) : Prop :=
  first ≤ last ∧ calls.filterMap Call.result? = (List.range' first (last - first)).map .result

namespace Numbered

variable {first middle last : Nat} {calls calls' : List Call}

theorem nil (n : Nat) : Numbered n n [] := ⟨Nat.le_refl n, by simp⟩

/-- A call that returns no instruction's result. -/
theorem single {c : Call} (hc : c.result? = none) (n : Nat) : Numbered n n [c] :=
  ⟨Nat.le_refl n, by simp [hc]⟩

/-- The results of more calls are numbered on from those before them. -/
theorem append (h : Numbered first middle calls) (h' : Numbered middle last calls') :
    Numbered first last (calls ++ calls') := by
  obtain ⟨hle, hcalls⟩ := h
  obtain ⟨hle', hcalls'⟩ := h'
  refine ⟨Nat.le_trans hle hle', ?_⟩
  have hrange : List.range' first (middle - first) ++ List.range' middle (last - middle) =
      List.range' first (last - first) := by
    have happend := @List.range'_append first (middle - first) (last - middle) 1
    rwa [Nat.one_mul, Nat.add_sub_cancel' hle,
      show middle - first + (last - middle) = last - first by omega] at happend
  rw [List.filterMap_append, hcalls, hcalls', ← List.map_append, hrange]

/-- No two instructions have one result. -/
theorem nodup (h : Numbered first last calls) : (calls.filterMap Call.result?).Nodup := by
  rw [h.2]
  exact (List.nodup_range' ..).map fun _ _ h => Val.result.inj h

end Numbered

namespace Lower

variable {α β : Type} {x : Lower α} {ok : α → List Call → Prop} {failed : List Call → Prop}

/-- The calls made have `ok` with the value given, or `failed` if there is none. -/
def Emits (x : Lower α) (ok : α → List Call → Prop) (failed : List Call → Prop) : Prop :=
  ∀ replies counters,
    Numbered counters.results (x.run replies counters).counters.results
      (x.run replies counters).calls ∧
    (∀ a, (x.run replies counters).value = .ok a → ok a (x.run replies counters).calls) ∧
    ∀ e, (x.run replies counters).value = .error e → failed (x.run replies counters).calls

namespace Emits

theorem imp (h : x.Emits ok failed) {ok' : α → List Call → Prop} {failed' : List Call → Prop}
    (hok : ∀ a calls, ok a calls → ok' a calls) (hfailed : ∀ calls, failed calls → failed' calls) :
    x.Emits ok' failed' := by
  intro r c
  obtain ⟨hnum, h₁, h₂⟩ := h r c
  exact ⟨hnum, fun a ha => hok a _ (h₁ a ha), fun e he => hfailed _ (h₂ e he)⟩

theorem pure {a : α} (h : ok a []) : Emits (Pure.pure a) ok failed := by
  intro r c
  refine ⟨.nil _, fun b hb => ?_, fun e he => ?_⟩
  · cases hb
    exact h
  · cases he

theorem fail {message : String} (h : failed []) :
    Emits (Lower.fail message : Lower α) ok failed := by
  intro r c
  refine ⟨.nil _, fun a ha => ?_, fun e _ => h⟩
  cases ha

/-- The calls of the first computation come before those of the second, which starts from what the
first has given. If the first fails, there are no others. -/
theorem bind {f : α → Lower β} {ok' : β → List Call → Prop} {failed' : List Call → Prop}
    (hx : x.Emits ok failed)
    (hf : ∀ a calls, ok a calls →
      (f a).Emits (fun b more => ok' b (calls ++ more)) fun more => failed' (calls ++ more))
    (hfailed : ∀ calls, failed calls → failed' calls) : (x >>= f).Emits ok' failed' := by
  intro r c
  obtain ⟨hnum, hok, herr⟩ := hx r c
  have hrun : (x >>= f).run r c =
      ⟨(ExceptT.bindCont f (x.run r c).value r (x.run r c).counters).value,
        (ExceptT.bindCont f (x.run r c).value r (x.run r c).counters).counters,
        (x.run r c).calls ++ (ExceptT.bindCont f (x.run r c).value r (x.run r c).counters).calls⟩ :=
    rfl
  rw [hrun]
  cases hv : (x.run r c).value with
  | ok a =>
    obtain ⟨hnum', hok', herr'⟩ := hf a _ (hok a hv) r (x.run r c).counters
    exact ⟨hnum.append hnum', hok', herr'⟩
  | error e =>
    have hempty : (ExceptT.bindCont f (.error e) r (x.run r c).counters).calls = [] := rfl
    refine ⟨hnum.append (.nil _), fun b hb => ?_, fun e' _ => ?_⟩
    · cases hb
    · rw [hempty, List.append_nil]
      exact hfailed _ (herr e hv)

/-- A call that returns no instruction's result. -/
theorem call {c : Call} (hc : c.result? = none) {ok : Unit → List Call → Prop} (h : ok () [c]) :
    Emits (liftM (Emit.call c)) ok failed :=
  fun _ _ => ⟨.single hc _, fun _ _ => h, fun _ he => nomatch he⟩

/-- A call for a new object. -/
theorem create {count : Counters → Nat} {next : Counters → Counters} {c : Nat → Call}
    (hresults : ∀ counters, (next counters).results = counters.results)
    (hc : ∀ n, (c n).result? = none) {ok : Nat → List Call → Prop} (h : ∀ n, ok n [c n]) :
    Emits (liftM (Emit.create count next c)) ok failed := by
  intro r counters
  refine ⟨?_, fun n _ => ?_, fun _ he => nomatch he⟩
  · show Numbered counters.results (next counters).results [c (count counters)]
    rw [hresults]
    exact .single (hc _) _
  · obtain rfl : count counters = n := by rename_i hn; exact Except.ok.inj hn
    exact h _

/-- An instruction with a result. -/
theorem build {site : Site} {b : Val → Build} (hb : ∀ v, (b v).result? = some v)
    {ok : Val → List Call → Prop} (h : ∀ v, ok v [.build site.builder (b v)]) :
    Emits (site.build b) ok failed := by
  intro r c
  refine ⟨⟨Nat.le_succ _, ?_⟩, fun v hv => ?_, fun _ he => nomatch he⟩
  · show List.filterMap Call.result? [.build site.builder (b (.result c.results))] =
      (List.range' c.results (c.results + 1 - c.results)).map _
    simp [Call.result?, hb]
  · cases hv
    exact h _

/-- An instruction without a result. -/
theorem finish {site : Site} {b : Build} (hb : b.result? = none) {ok : Unit → List Call → Prop}
    (h : ok () [.build site.builder b]) : Emits (site.finish b) ok failed :=
  call (c := .build site.builder b) hb h

/-- The last call is made in any case, so it stands at the end of the calls whether the computation
gives a value or fails. -/
theorem ensuring {c : Call} (hc : c.result? = none)
    (h : x.Emits (fun a calls => ok a (calls ++ [c])) fun calls => failed (calls ++ [c])) :
    (x.ensuring (Emit.call c)).Emits ok failed := by
  intro r counters
  obtain ⟨hnum, hok, hfailed⟩ := h r counters
  exact ⟨hnum.append (.single hc _), hok, hfailed⟩

theorem onFailure {c : Call} (hc : c.result? = none)
    (h : x.Emits ok fun calls => failed (calls ++ [c])) :
    (x.onFailure (Emit.call c)).Emits ok failed := by
  intro r counters
  obtain ⟨hnum, hok, hfailed⟩ := h r counters
  have hrun : (x.onFailure (Emit.call c)).run r counters =
      ⟨(x.run r counters).value, (x.run r counters).counters,
        (x.run r counters).calls ++ if (x.run r counters).value.isOk then [] else [c]⟩ := by
    unfold Lower.onFailure
    show (x.run >>= _) r counters = _
    rw [Emit.bind_apply]
    cases (x.run r counters).value <;> rfl
  rw [hrun]
  cases hv : (x.run r counters).value with
  | ok a =>
    rw [hv] at hok
    refine ⟨hnum.append (.nil _), fun b hb => ?_, fun _ he => nomatch he⟩
    rw [show (if (Except.ok a : Except CodegenError α).isOk then [] else [c]) = [] from rfl,
      List.append_nil]
    exact hok b hb
  | error e =>
    rw [hv] at hfailed
    exact ⟨hnum.append (.single hc _), fun _ hb => (nomatch hb), hfailed⟩

/-- A list is gone through. `inv` is what holds of the elements done and the calls made for them. -/
theorem forM {l : List α} {f : α → Lower Unit} (inv : List α → List Call → Prop)
    (start : inv [] [])
    (step : ∀ done a rest calls, l = done ++ a :: rest → inv done calls →
      (f a).Emits (fun _ more => inv (done ++ [a]) (calls ++ more))
        fun more => failed (calls ++ more)) :
    (l.forM f).Emits (fun _ calls => inv l calls) failed := by
  have hrest : ∀ rest done calls, l = done ++ rest → inv done calls →
      (rest.forM f).Emits (fun _ more => inv l (calls ++ more))
        fun more => failed (calls ++ more) := by
    intro rest
    induction rest with
    | nil =>
      intro done calls hl hinv
      refine Emits.pure ?_
      rwa [hl, List.append_nil, List.append_nil]
    | cons a rest ih =>
      intro done calls hl hinv
      refine bind (step done a rest calls hl hinv) (fun _ more hmore => ?_) fun _ h => h
      refine (ih (done ++ [a]) (calls ++ more) ?_ hmore).imp (fun _ last h => ?_) fun last h => ?_
      · rw [hl, List.append_assoc]
        rfl
      · rwa [← List.append_assoc]
      · rwa [← List.append_assoc]
  exact hrest l [] [] rfl start

/-- A list is gone through with one call for each element. -/
theorem forM_map {l : List α} {f : α → Lower Unit} (g : α → Call)
    (step : ∀ done a rest, l = done ++ a :: rest →
      (f a).Emits (fun _ calls => calls = [g a]) fun more => failed (done.map g ++ more)) :
    (l.forM f).Emits (fun _ calls => calls = l.map g) failed := by
  refine forM (fun done calls => calls = done.map g) rfl fun done a rest calls hl hinv => ?_
  rw [hinv]
  refine (step done a rest hl).imp (fun _ more hmore => ?_) fun _ h => h
  rw [hmore, List.map_append, List.map_singleton]

end Emits

/-- Makes no calls, and gives a value with `post` if it does not fail. -/
def Quiet (x : Lower α) (post : α → Prop) : Prop :=
  x.Emits (fun a calls => calls = [] ∧ post a) (· = [])

namespace Quiet

variable {post : α → Prop}

theorem pure {a : α} (h : post a) : Quiet (Pure.pure a) post := Emits.pure ⟨rfl, h⟩

theorem fail {message : String} : Quiet (Lower.fail message) post := Emits.fail rfl

/-- Whatever comes after it makes all the calls. -/
theorem bind {f : α → Lower β} {ok : β → List Call → Prop} (hx : x.Quiet post)
    (hf : ∀ a, post a → (f a).Emits ok failed) (hfailed : failed []) :
    (x >>= f).Emits ok failed := by
  refine Emits.bind hx (fun a calls h => ?_) fun calls h => ?_
  · obtain ⟨rfl, ha⟩ := h
    exact hf a ha
  · rwa [h]

/-- A list of computations that make no calls makes none, and each element has `rel` to what it
gave. -/
theorem mapM {l : List α} {f : α → Lower β} (rel : α → β → Prop)
    (h : ∀ a ∈ l, (f a).Quiet (rel a)) : (l.mapM f).Quiet (List.Forall₂ rel l) := by
  induction l with
  | nil => exact pure .nil
  | cons a l ih =>
    rw [List.mapM_cons]
    exact (h a List.mem_cons_self).bind (fun b hb =>
      (ih fun a' ha' => h a' (List.mem_cons_of_mem _ ha')).bind (fun bs hbs => pure (.cons hb hbs))
        rfl) rfl

theorem checkText (s : String) : (Lower.checkText s).Quiet fun _ => True := by
  unfold Lower.checkText
  split
  · exact fail
  · exact pure trivial

end Quiet

end Lower

end TypedSSA.LLVM
