import TypedSSA.Proofs.Typed.Bounds
import TypedSSA.Typed.Instr

/-!
# Typed code passes the check

What is left of a typed instruction or terminator when its types are forgotten is accepted by the
check on untyped code, at the type that was forgotten (`Typed.Instr.check_erase`,
`Typed.Terminator.check_erase`).
-/

namespace TypedSSA

theorem forM_eq_ok {α : Type} {f : α → Except Fault Unit} {l : List α}
    (h : ∀ x ∈ l, f x = .ok ()) : l.forM f = .ok () := by
  induction l with
  | nil => rfl
  | cons x l ih =>
    rw [List.forall_mem_cons] at h
    rw [List.forM_eq_forM, List.forM_cons, h.1]
    exact ih h.2

namespace Typed

theorem Args.checkArgs_values {ps : List Scalar} (callee : Label) (index : Nat) (args : Args ps) :
    checkArgs callee index ps args.values = .ok () := by
  induction args generalizing index with
  | nil => rfl
  | cons a rest ih => simp [values, checkArgs, ih]

theorem Args.length_values {ps : List Scalar} (args : Args ps) :
    args.values.length = ps.length := by
  induction args with
  | nil => rfl
  | cons a rest ih => simp [values, ih]

/-- By cases on the typing rule. What the rule asks of its types is what the check finds. -/
theorem Instr.check_erase {t : Ty} (i : Instr t) : i.erase.check = .ok t := by
  cases i with
  | binary op lhs rhs h =>
    simp [erase, TypedSSA.Instr.check, BinOp.check_of_admits h, bind, Except.bind, pure,
      Except.pure]
  | cast op value t h =>
    simp [erase, TypedSSA.Instr.check, CastOp.check_of_admits h, bind, Except.bind, pure,
      Except.pure]
  | cmp predicate lhs rhs =>
    simp [erase, TypedSSA.Instr.check, bind, Except.bind, pure, Except.pure]
  | select condition ifTrue ifFalse =>
    simp [erase, TypedSSA.Instr.check, bind, Except.bind, pure, Except.pure]
  | @phi t incoming h =>
    have herase : (phi incoming h).erase = .phi t (incoming.map fun p => (p.1.erase, p.2)) := rfl
    have htypes : ∀ p ∈ incoming.map fun p => (p.1.erase, p.2),
        expectType t (Prod.fst p).ty = .ok () := by
      intro p hp
      obtain ⟨q, -, rfl⟩ := List.mem_map.mp hp
      simp
    rw [herase]
    obtain ⟨first, rest, rfl⟩ := List.exists_cons_of_ne_nil h
    show (List.forM _ _ >>= fun _ => _) = _
    rw [forM_eq_ok htypes]
    rfl
  | @call callee params ret args attributes =>
    simp [erase, TypedSSA.Instr.check, FuncType.checkArguments, args.length_values,
      args.checkArgs_values, bind, Except.bind, pure, Except.pure]

/-- The cases of a switch are literals of the type that it looks at, so they fit, and they are
distinct by the rule itself. -/
theorem Terminator.check_erase {r : Ty} (t : Terminator r) : t.erase.check r = .ok () := by
  cases t with
  | ret => rfl
  | retVal value => simp [erase, TypedSSA.Terminator.check]
  | br target => rfl
  | condBr condition ifTrue ifFalse => simp [erase, TypedSSA.Terminator.check]
  | @switch _ s integral scrutinee default cases distinct =>
    have hmap : (cases.map fun c => (c.1.toConst, c.2)).map (·.1) =
        cases.map fun c => c.1.toConst := by
      simp
    have herase : (switch integral scrutinee default cases distinct : Terminator r).erase =
        .switch scrutinee.erase default (cases.map fun c => (c.1.toConst, c.2)) := rfl
    simp only [herase, TypedSSA.Terminator.check, Operand.ty_erase, isIntegral_iff.mp integral,
      if_true]
    split
    · rename_i value label hfound
      obtain ⟨c, -, hc⟩ := List.mem_map.mp (List.mem_of_find?_eq_some hfound)
      have hunfit := List.find?_some hfound
      rw [← (Prod.mk.inj hc).1, Literal.fits_toConst] at hunfit
      cases hunfit
    · rw [checkDistinctCases, hmap, distinct]

end Typed

end TypedSSA
