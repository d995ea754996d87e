import TypedSSA.Proofs.Builder.Given
import TypedSSA.Proofs.Builder.Supply

/-!
# Several bodies at a time

Supplies and builders are started in any number, and used in any order (`Workshop.Step`). Each has a
scope of its own, and numbers its locals from zero, so the names of one body are names of another
too. Locals can be passed from one to another at will. Only the scope that a local carries tells
where it is from, and that is enough: a local that a finished function reads with a scope was given
by the builder of that function and by no other (`Workshop.Reachable.resolves`).

A local with a scope cannot be made up. Every one that an operation reads has been given by a
builder or issued by a supply before. Finishing a body is no step, as it does nothing to the others.
-/

namespace TypedSSA

/-- Supplies and bodies that are in use side by side. -/
structure Workshop where
  scopes : Scopes := {}
  supplies : List Supply := []
  bodies : List Body := []
  /-- The locals that supplies have issued. -/
  issued : List Value := []

namespace Workshop

variable {w w' : Workshop}

/-- All locals that there are, with the scope of what they are from. -/
def given (w : Workshop) : List Value := w.issued ++ w.bodies.flatMap Body.given

/-- The scopes of all supplies and bodies. -/
def owners (w : Workshop) : List Scope := w.supplies.map Supply.scope ++ w.bodies.map Body.scope

/-- One of the supplies and bodies is started or used. -/
inductive Step (w : Workshop) : Workshop → Prop where
  | newSupply : Step w { w with
      scopes := w.scopes.fresh.2
      supplies := w.supplies ++ [.new w.scopes.fresh.1] }
  | newBody (type : FuncType) (label : Label) : Step w { w with
      scopes := w.scopes.fresh.2
      bodies := w.bodies ++ [⟨type, w.scopes.fresh.1, label, []⟩] }
  | ask (before after : List Supply) (s : Supply) (request : Supply.Request)
      (here : w.supplies = before ++ s :: after) : Step w { w with
        supplies := before ++ (s.ask request).2 :: after
        issued := w.issued ++ (s.ask request).1.value?.toList }
  | perform (before after : List Body) (body : Body) (op : Builder.Op body.type)
      (here : w.bodies = before ++ body :: after)
      (known : ∀ v ∈ op.operands, v.scope?.isSome → v ∈ w.given) : Step w { w with
        bodies := before ++ { body with ops := body.ops ++ [op] } :: after }

/-- What any steps make of an empty workshop. -/
inductive Reachable : Workshop → Prop where
  | empty : Reachable {}
  | step {w w' : Workshop} (before : Reachable w) (step : Step w w') : Reachable w'

/-! ## One step -/

/-- A step takes the next scope for something new, or no scope at all. -/
theorem Step.owners_cases (h : Step w w') :
    (w'.scopes = w.scopes.fresh.2 ∧ w'.owners.Perm (w.scopes.fresh.1 :: w.owners)) ∨
      (w'.scopes = w.scopes ∧ w'.owners = w.owners) := by
  cases h with
  | newSupply =>
    refine .inl ⟨rfl, ?_⟩
    simp only [owners, List.map_append, List.map_cons, List.map_nil, List.append_assoc,
      List.singleton_append]
    exact List.perm_middle
  | newBody type label =>
    refine .inl ⟨rfl, ?_⟩
    simp only [owners, List.map_append, List.map_cons, List.map_nil, ← List.append_assoc]
    exact List.perm_append_singleton _ _
  | ask before after s request here =>
    exact .inr ⟨rfl, by simp [owners, here, s.scope_ask]⟩
  | perform before after body op here known =>
    exact .inr ⟨rfl, by simp [owners, here]⟩

/-- What has been given stays given. -/
theorem Step.given_subset (h : Step w w') : w.given ⊆ w'.given := by
  cases h with
  | newSupply => exact List.Subset.refl _
  | newBody type label => simp [given, ← List.append_assoc]
  | ask before after s request here =>
    exact List.append_subset.mpr ⟨fun v hv => by simp [given, hv], by simp [given]⟩
  | perform before after body op here known =>
    intro v hv
    have hbody : v ∈ body.given → v ∈ ({ body with ops := body.ops ++ [op] } : Body).given :=
      fun h => body.given_subset_concat op h
    simp only [given, here, List.flatMap_append, List.flatMap_cons, List.mem_append] at hv ⊢
    tauto

/-! ## All steps -/

/-- Scopes are used once, and locals carry the scope of what they are from. -/
structure Inv (w : Workshop) : Prop where
  owners : w.owners.Nodup
  fresh (s : Scope) : s ∈ w.owners → s.id < w.scopes.next
  issued (v : Value) : v ∈ w.issued → ∃ scope ∈ w.supplies.map Supply.scope, v.scope? = some scope
  reads (body : Body) : body ∈ w.bodies → ∀ v ∈ body.operands, v.scope?.isSome → v ∈ w.given

/-- A scope is taken only when something is started, and is then the next one, which nobody has. -/
theorem Inv.owners_step (h : w.Inv) (hs : Step w w') :
    w'.owners.Nodup ∧ ∀ s ∈ w'.owners, s.id < w'.scopes.next := by
  rcases hs.owners_cases with ⟨hscopes, hperm⟩ | ⟨hscopes, howners⟩
  · have hnew : w.scopes.fresh.1 ∉ w.owners := fun hmem => Nat.lt_irrefl _ (h.fresh _ hmem)
    refine ⟨hperm.nodup_iff.mpr (List.nodup_cons.mpr ⟨hnew, h.owners⟩), fun s hs => ?_⟩
    rw [hscopes]
    show s.id < w.scopes.next + 1
    rcases List.mem_cons.mp (hperm.mem_iff.mp hs) with rfl | hs
    · exact Nat.lt_succ_self _
    · exact Nat.lt_succ_of_lt (h.fresh s hs)
  · rw [hscopes, howners]
    exact ⟨h.owners, h.fresh⟩

theorem Inv.issued_step (h : w.Inv) (hs : Step w w') {v : Value} (hv : v ∈ w'.issued) :
    ∃ scope ∈ w'.supplies.map Supply.scope, v.scope? = some scope := by
  cases hs with
  | newSupply =>
    obtain ⟨scope, hscope, hv⟩ := h.issued v hv
    exact ⟨scope, by simp only [List.map_append, List.mem_append, hscope, true_or], hv⟩
  | newBody => exact h.issued v hv
  | perform => exact h.issued v hv
  | ask before after s request here =>
    have hscopes : (before ++ (s.ask request).2 :: after).map Supply.scope =
        w.supplies.map Supply.scope := by
      simp [here, s.scope_ask]
    simp only [hscopes]
    rcases List.mem_append.mp hv with hv | hv
    · exact h.issued v hv
    · exact ⟨s.scope, by simp [here], Supply.scope?_of_ask (Option.mem_toList.mp hv)⟩

/-- What a body reads was there before the last step. The operation of that step, if it has one,
reads what was known by then, and the others have read all they do earlier. -/
theorem Inv.reads_step (h : w.Inv) (hs : Step w w') {body : Body} (hbody : body ∈ w'.bodies)
    {v : Value} (hv : v ∈ body.operands) (hscope : v.scope?.isSome) : v ∈ w.given := by
  cases hs with
  | newSupply => exact h.reads body hbody v hv hscope
  | ask => exact h.reads body hbody v hv hscope
  | newBody type label =>
    rcases List.mem_append.mp hbody with hbody | hbody
    · exact h.reads body hbody v hv hscope
    · obtain rfl := List.mem_singleton.mp hbody
      cases hv
  | perform before after used op here known =>
    have hmem : body ∈ w.bodies ∨ body = { used with ops := used.ops ++ [op] } := by
      rw [here]
      simp only [List.mem_append, List.mem_cons] at hbody ⊢
      tauto
    rcases hmem with hmem | rfl
    · exact h.reads body hmem v hv hscope
    · rw [Body.operands, List.flatMap_append, List.mem_append, List.flatMap_singleton] at hv
      rcases hv with hv | hv
      · exact h.reads used (by simp [here]) v hv hscope
      · exact known v hv hscope

theorem Inv.step (h : w.Inv) (hs : Step w w') : w'.Inv := by
  obtain ⟨howners, hfresh⟩ := h.owners_step hs
  refine ⟨howners, hfresh, fun v hv => h.issued_step hs hv, fun body hbody v hv hscope => ?_⟩
  exact hs.given_subset (h.reads_step hs hbody hv hscope)

theorem Reachable.inv (h : w.Reachable) : w.Inv := by
  induction h with
  | empty => exact ⟨List.nodup_nil, by simp [owners], by simp, by simp⟩
  | step _ hs ih => exact ih.step hs

/-- A local with the scope of a body was given by its builder. -/
theorem Inv.mem_given (h : w.Inv) {body : Body} (hbody : body ∈ w.bodies) {v : Value}
    (hv : v ∈ w.given) (hscope : v.scope? = some body.scope) : v ∈ body.given := by
  obtain ⟨-, hbodies, hcross⟩ := List.nodup_append.mp h.owners
  have hmem : body.scope ∈ w.bodies.map Body.scope := List.mem_map_of_mem hbody
  rcases List.mem_append.mp hv with hv | hv
  · obtain ⟨scope, hs, hv⟩ := h.issued v hv
    obtain rfl : scope = body.scope := Option.some.inj (hv.symm.trans hscope)
    exact absurd rfl (hcross _ hs _ hmem)
  · obtain ⟨other, hother, hv⟩ := List.mem_flatMap.mp hv
    obtain ⟨name, ty, rfl, -⟩ := Body.mem_given_iff.mp hv
    have heq : other = body :=
      List.inj_on_of_nodup_map hbodies hother hbody (Option.some.inj hscope)
    exact heq ▸ hv

/-- Names are resolved within a body, whatever else is being built. A local that a finished function
reads with a scope was given by the builder of that function, for one of its parameters or by one of
the operations on it, and by that one alone. The name of the local is bound by that parameter or by
the instruction of that operation, at the type that it is read at, and by nothing else. If, the
other way round, the operations on a builder read no locals but those that it has given before, then
the scope check finds fault with labels only. -/
theorem Reachable.resolves (h : w.Reachable) {body : Body} (hbody : body ∈ w.bodies) :
    (∀ f, body.builder.finish = .ok f → ∀ block ∈ f.blocks, ∀ ty name scope,
      .loc ty name (some scope) ∈ block.reads →
      ∃ o, body.givenBy? o = some (.loc ty name (some scope)) ∧
        (∀ o' v, body.givenBy? o' = some v → v.name? = some name → o' = o) ∧
        body.BoundOnlyBy f name ty o) ∧
    (body.ReadsOwn → ∀ fault, body.builder.scopeFault? = some fault →
      ∃ target, fault = .undefinedLabel body.label target) := by
  have hinv := h.inv
  refine ⟨fun f hf block hblock ty name scope hread => ?_, fun hown fault hfault => ?_⟩
  · obtain ⟨⟨-, hwell⟩, hfunc⟩ := body.reachable_builder.inv.finish_eq_ok_iff.mp hf
    rw [hfunc] at hblock
    have hpassed : .loc ty name (some scope) ∈ body.operands :=
      (body.reads_builder).of_mem hblock hread
    have hscope : scope = body.scope := by
      have hown := (hwell.reads block hblock ty name _ hread).1
      rw [body.scope_builder] at hown
      simpa using hown
    have hgiven : .loc ty name (some scope) ∈ body.given :=
      hinv.mem_given hbody (hinv.reads body hbody _ hpassed rfl) (congrArg some hscope)
    obtain ⟨o, ho, hbound⟩ := Body.exists_origin hf hgiven
    exact ⟨o, ho, fun o' v hv hname => Body.origin_unique hv ho hname, hbound⟩
  · obtain ⟨target, rfl⟩ := hown.readsBound.scopeFault? body.reachable_builder.inv hfault
    exact ⟨target, by rw [body.label_builder]⟩

/-- The square of its argument. -/
def squared : Body where
  type := ⟨[.i32], .scalar .i32⟩
  scope := ⟨1⟩
  label := "squared"
  ops :=
    let loc (k : Nat) : Typed.Operand .i32 := .name ⟨⟨1⟩, .number k⟩
    [.bind (.binary .mul (loc 0) (loc 0) (by decide)), .terminate (.retVal (loc 1))]

/-- Gives a local of its own the number that the result of `squared` has, and returns the one of
`squared`. -/
def leaking : Body where
  type := ⟨[.i32], .scalar .i32⟩
  scope := ⟨2⟩
  label := "leaking"
  ops := [.tryBind (.binary .add (.loc .i32 (.number 0) (some ⟨2⟩)) .one),
    .terminate (.retVal (.name ⟨⟨1⟩, .number 1⟩))]

/-- The two at work at the same time, after so many operations on each, beside a supply that has
issued a name. -/
def sideBySide (i j : Nat) : Workshop where
  scopes := ⟨3⟩
  supplies := [((Supply.new ⟨0⟩).ask (.fresh .i32)).2]
  bodies := [{ squared with ops := squared.ops.take i }, { leaking with ops := leaking.ops.take j }]
  issued := [.loc .i32 (.number 0) (some ⟨0⟩)]

/-- The operations on the two bodies are done in turn. -/
theorem reachable_sideBySide : (sideBySide 2 2).Reachable := by
  have hsupply := Reachable.empty.step .newSupply
  have hfirst := hsupply.step (.newBody ⟨[.i32], .scalar .i32⟩ "squared")
  have hsecond := hfirst.step (.newBody ⟨[.i32], .scalar .i32⟩ "leaking")
  have h₀₀ : (sideBySide 0 0).Reachable :=
    hsecond.step (.ask [] [] (Supply.new ⟨0⟩) (.fresh .i32) rfl)
  have h₁₀ : (sideBySide 1 0).Reachable := h₀₀.step
    (.perform [] _ { squared with ops := [] } (squared.ops.get ⟨0, by decide⟩) rfl (by decide))
  have h₁₁ : (sideBySide 1 1).Reachable := h₁₀.step
    (.perform [_] [] { leaking with ops := [] } (leaking.ops.get ⟨0, by decide⟩) rfl (by decide))
  have h₂₁ : (sideBySide 2 1).Reachable := h₁₁.step
    (.perform [] _ { squared with ops := squared.ops.take 1 } (squared.ops.get ⟨1, by decide⟩) rfl
      (by decide))
  exact h₂₁.step
    (.perform [_] [] { leaking with ops := leaking.ops.take 1 } (leaking.ops.get ⟨1, by decide⟩) rfl
      (by decide))

/-- The function that `squared` makes. -/
def squaredFunc : Func where
  label := "squared"
  type := ⟨[.i32], .scalar .i32⟩
  params := [.number 0]
  blocks := squared.builder.blocks

theorem resolves_sideBySide :
    (sideBySide 2 2).Reachable ∧ squared ∈ (sideBySide 2 2).bodies ∧ squared.ReadsOwn ∧
      squared.builder.finish = .ok squaredFunc ∧
      leaking.builder.finish = .error (.unboundName "leaking" (.number 1)) ∧
      (∃ o, squared.givenBy? o = some (.loc .i32 (.number 1) (some ⟨1⟩)) ∧
        (∀ o' v, squared.givenBy? o' = some v → v.name? = some (.number 1) → o' = o) ∧
        squared.BoundOnlyBy squaredFunc (.number 1) .i32 o) ∧
      ∀ fault, squared.builder.scopeFault? = some fault →
        ∃ target, fault = .undefinedLabel "squared" target := by
  have hown : squared.ReadsOwn := by decide
  have hf : squared.builder.finish = .ok squaredFunc := by decide +kernel
  have hleak : leaking.builder.finish = .error (.unboundName "leaking" (.number 1)) := by
    decide +kernel
  have hmem : squared ∈ (sideBySide 2 2).bodies := List.mem_cons_self
  obtain ⟨hread, hlabels⟩ := reachable_sideBySide.resolves hmem
  refine ⟨reachable_sideBySide, hmem, hown, hf, hleak, ?_, hlabels hown⟩
  have hblock : squaredFunc.blocks = [⟨"entry", [.bind (.number 1) .i32 (.binary .mul
    (.loc .i32 (.number 0) (some ⟨1⟩)) (.loc .i32 (.number 0) (some ⟨1⟩)))],
    .retVal (.loc .i32 (.number 1) (some ⟨1⟩))⟩] := by decide
  exact hread _ hf _ (hblock ▸ List.mem_cons_self) .i32 (.number 1) ⟨1⟩ (by decide)

end Workshop

end TypedSSA
