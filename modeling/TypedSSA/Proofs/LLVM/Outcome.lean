import TypedSSA.LLVM.Lowering

/-!
# Outcomes of lowering

Lowering fails where a local is read that has not been lowered yet. `Lower.Spec x missing post` says
when a computation does so: it fails with the use of a missing name if there is one, and otherwise
gives a result with `post`, whatever LLVM replies. So both are known from the names alone, and there
is one rule for each way that computations are put together. `Lower.Total` is the case in which no
name can be missing.
-/

namespace TypedSSA.LLVM

/-- The error for a local that is read before it is lowered. -/
def undefined (name : LocalName) : CodegenError :=
  .llvm ("use of " ++ name.text ++ " before its definition")

/-- Calls are put one after the other, and it does not matter how they are grouped. -/
instance : LawfulMonad Emit := LawfulMonad.mk' Emit
  (fun {α} x => funext fun r => funext fun c => by
    show (⟨(x r c).value, (x r c).counters, (x r c).calls ++ []⟩ : Emitted α) = x r c
    rw [List.append_nil])
  (fun _ _ => rfl)
  (fun _ _ _ => funext fun _ => funext fun _ =>
    congrArg (Emitted.mk _ _) (List.append_assoc _ _ _))

/-- The second computation goes on from the counters of the first, with its calls after those. -/
theorem Emit.bind_apply {α β : Type} (x : Emit α) (f : α → Emit β) (r : Replies) (c : Counters) :
    (x >>= f) r c = ⟨(f (x r c).value r (x r c).counters).value,
      (f (x r c).value r (x r c).counters).counters,
      (x r c).calls ++ (f (x r c).value r (x r c).counters).calls⟩ := rfl

theorem Emit.map_apply {α β : Type} (f : α → β) (x : Emit α) (r : Replies) (c : Counters) :
    (f <$> x) r c = ⟨f (x r c).value, (x r c).counters, (x r c).calls⟩ :=
  congrArg (Emitted.mk _ _) (List.append_nil _)

theorem Emit.value_bind {α β : Type} (x : Emit α) (f : α → Emit β) (r : Replies) (c : Counters) :
    ((x >>= f) r c).value = (f (x r c).value r (x r c).counters).value := rfl

namespace Lower

variable {α β : Type} {x : Lower α} {f : α → Lower β} {missing missing' : LocalName → Prop}
  {post : α → Prop} {post' : β → Prop}

/-- Fails with the use of a missing name if there is one, and otherwise gives a result with
`post`. -/
def Spec (x : Lower α) (missing : LocalName → Prop) (post : α → Prop) : Prop :=
  ∀ replies counters,
    (∃ a, (x.run replies counters).value = .ok a ∧ (∀ name, ¬ missing name) ∧ post a) ∨
    (∃ name, (x.run replies counters).value = .error (undefined name) ∧ missing name)

/-- Gives a result with `post`. -/
def Total (x : Lower α) (post : α → Prop) : Prop := x.Spec (fun _ => False) post

namespace Spec

theorem imp (h : x.Spec missing post) (hm : ∀ name, missing name ↔ missing' name)
    {post' : α → Prop} (hp : ∀ a, post a → post' a) : x.Spec missing' post' := by
  intro r c
  rcases h r c with ⟨a, ha, hnone, hpost⟩ | ⟨name, hname, hmiss⟩
  · exact .inl ⟨a, ha, fun name hn => hnone name ((hm name).mpr hn), hp a hpost⟩
  · exact .inr ⟨name, hname, (hm name).mp hmiss⟩

theorem congr (h : x.Spec missing post) (hm : ∀ name, missing name ↔ missing' name) :
    x.Spec missing' post :=
  h.imp hm fun _ hp => hp

theorem fail {name : LocalName} (h : missing name) :
    Spec (Lower.fail ("use of " ++ name.text ++ " before its definition")) missing post :=
  fun _ _ => .inr ⟨name, rfl, h⟩

/-- What is missing in `x` or in what comes after it. -/
theorem bind (hx : x.Spec missing post) (hf : ∀ a, post a → (f a).Spec missing' post') :
    (x >>= f).Spec (fun name => missing name ∨ missing' name) post' := by
  intro r c
  have hrun : ((x >>= f).run r c).value =
      (ExceptT.bindCont f (x.run r c).value r (x.run r c).counters).value := rfl
  rw [hrun]
  rcases hx r c with ⟨a, ha, hnone, hpost⟩ | ⟨name, hname, hmiss⟩
  · rw [ha]
    rcases hf a hpost r (x.run r c).counters with ⟨b, hb, hnone', hpost'⟩ | ⟨name, hname, hmiss⟩
    · refine .inl ⟨b, hb, fun name hn => ?_, hpost'⟩
      rcases hn with hn | hn
      · exact hnone name hn
      · exact hnone' name hn
    · exact .inr ⟨name, hname, .inr hmiss⟩
  · rw [hname]
    exact .inr ⟨name, rfl, .inl hmiss⟩

/-- If what comes after cannot fail, the only errors are those of what comes first. -/
theorem bind_total (hx : x.Spec missing post) (hf : ∀ a, post a → (f a).Total post') :
    (x >>= f).Spec missing post' :=
  (hx.bind hf).congr fun _ => iff_of_eq (or_false _)

theorem ensuring (h : x.Spec missing post) (cleanup : Emit Unit) :
    (x.ensuring cleanup).Spec missing post := h

/-- Cleaning up changes neither the value nor the error. -/
theorem onFailure (h : x.Spec missing post) (cleanup : Emit Unit) :
    (x.onFailure cleanup).Spec missing post := by
  intro r c
  have hrun : ((x.onFailure cleanup).run r c).value = (x.run r c).value := by
    unfold Lower.onFailure
    show ((x.run >>= _) r c).value = _
    rw [Emit.value_bind]
    cases (x.run r c).value <;> rfl
  rw [hrun]
  exact h r c

end Spec

namespace Total

theorem pure {a : α} (h : post a) : Total (Pure.pure a) post :=
  fun _ _ => .inl ⟨a, rfl, fun _ hn => hn, h⟩

theorem lift (e : Emit α) : Total (liftM e) fun _ => True :=
  fun r c => .inl ⟨(e r c).value, rfl, fun _ hn => hn, trivial⟩

theorem bind (hx : x.Total post) (hf : ∀ a, post a → (f a).Spec missing' post') :
    (x >>= f).Spec missing' post' :=
  (Spec.bind hx hf).congr fun _ => iff_of_eq (false_or _)

end Total

/-- What is missing for one of the elements is missing for the list. -/
theorem Spec.forM {l : List α} {f : α → Lower Unit} {missing : α → LocalName → Prop}
    (h : ∀ a ∈ l, (f a).Spec (missing a) fun _ => True) :
    (l.forM f).Spec (fun name => ∃ a ∈ l, missing a name) fun _ => True := by
  induction l with
  | nil => exact (Total.pure trivial).congr fun name => by simp
  | cons a l ih =>
    refine Spec.congr (Spec.bind (h a List.mem_cons_self) fun _ _ =>
      ih fun b hb => h b (List.mem_cons_of_mem _ hb)) fun name => ?_
    simp

theorem Total.forM {l : List α} {f : α → Lower Unit} (h : ∀ a ∈ l, (f a).Total fun _ => True) :
    (l.forM f).Total fun _ => True :=
  (Spec.forM h).congr fun _ => by simp

/-- Any of the elements may be the one that fails, but only for its own reasons. -/
theorem Spec.mapM {l : List α} {f : α → Lower β} {missing : α → LocalName → Prop}
    (h : ∀ a ∈ l, (f a).Spec (missing a) fun _ => True) :
    (l.mapM f).Spec (fun name => ∃ a ∈ l, missing a name) fun _ => True := by
  induction l with
  | nil => exact (Total.pure trivial).congr fun name => by simp
  | cons a l ih =>
    rw [List.mapM_cons]
    refine Spec.congr (Spec.bind (h a List.mem_cons_self) fun _ _ =>
      (ih fun b hb => h b (List.mem_cons_of_mem _ hb)).bind_total fun _ _ =>
        Total.pure trivial) fun name => ?_
    simp

end Lower

end TypedSSA.LLVM
