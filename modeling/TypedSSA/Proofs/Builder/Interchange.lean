import TypedSSA.Finish
import TypedSSA.Proofs.Builder.Outcomes

/-!
# Typed and erased operations

An operation on typed code does the same as its counterpart on what is left of the code when its
types are forgotten: it takes the same names, gives the same local or the same fault, and leaves the
same builder. So the two can be mixed at will in a run, and nothing that the run gives can tell
(`Builder.counterparts_agree`). What makes it so is that typed code passes every check that erased
code is put to.
-/

namespace TypedSSA

namespace Typed

theorem Instr.checkBind_erase {t : Scalar} (i : Instr (.scalar t)) : i.erase.checkBind = .ok t := by
  unfold TypedSSA.Instr.checkBind
  rw [i.check_erase]
  rfl

theorem Instr.checkDiscard_erase (i : Instr .void) : i.erase.checkDiscard = .ok () := by
  unfold TypedSSA.Instr.checkDiscard
  rw [i.check_erase]
  rfl

end Typed

namespace Builder

variable {type : FuncType}

/-! ## One operation -/

/-- The typed operation and the other take the same name and put the same instruction into the
block, since the check of an instruction that was typed passes, and at its type. -/
theorem tryBind_erase (b : Builder type) {t : Scalar} (i : Typed.Instr (.scalar t)) :
    b.tryBind i.erase =
      ((b.bind i).1.map fun n => (Typed.Operand.name n).erase, (b.bind i).2) := by
  simp only [tryBind, i.checkBind_erase, bind]
  cases (({ b with names := b.names.fresh.2 } : Builder type).push
    (.bind b.names.fresh.1 t i.erase)).1 <;> rfl

theorem tryDiscard_erase (b : Builder type) (i : Typed.Instr .void) :
    b.tryDiscard i.erase = b.discard i := by
  simp only [tryDiscard, i.checkDiscard_erase, discard]

theorem tryTerminate_erase (b : Builder type) (t : Typed.Terminator type.ret) :
    b.tryTerminate t.erase = b.terminate t := by
  simp only [tryTerminate, t.check_erase, terminate]

/-- The operation on erased code that is the counterpart of one on typed code. An operation that has
none is its own. -/
def Op.erased : Op type → Op type
  | .bind i => .tryBind i.erase
  | .discard i => .tryDiscard i.erase
  | .terminate t => .tryTerminate t.erase
  | op => op

/-- An operation on typed code does what its counterpart does on the same code without types. -/
theorem perform_erased (b : Builder type) (op : Op type) : b.perform op.erased = b.perform op := by
  cases op with
  | bind i =>
    simp only [Op.erased, perform, tryBind_erase]
    cases (b.bind i).1 <;> rfl
  | discard i => simp only [Op.erased, perform, tryDiscard_erase]
  | terminate t => simp only [Op.erased, perform, tryTerminate_erase]
  | _ => rfl

/-! ## Runs -/

/-- The same operations, but for some that are replaced by their counterparts. -/
def Mixed (ops mixed : List (Op type)) : Prop :=
  List.Forall₂ (fun op op' => op' = op ∨ op' = op.erased) ops mixed

/-- By induction on the run: whichever counterpart is taken, the next operation starts from the same
builder. -/
theorem Mixed.run_eq {ops mixed : List (Op type)} (h : Mixed ops mixed) (b : Builder type) :
    b.outcomes mixed = b.outcomes ops ∧ b.performAll mixed = b.performAll ops := by
  induction h generalizing b with
  | nil => exact ⟨rfl, rfl⟩
  | @cons op op' ops mixed hop _ ih =>
    have hperform : b.perform op' = b.perform op := by
      rcases hop with rfl | rfl
      · rfl
      · exact b.perform_erased op
    obtain ⟨houtcomes, hleft⟩ := ih (b.perform op).2
    refine ⟨?_, ?_⟩
    · simp only [outcomes, hperform, houtcomes]
    · show (b.perform op').2.performAll mixed = (b.perform op).2.performAll ops
      rw [hperform, hleft]

/-- Typed operations and their counterparts on erased code have the same outcome and leave the same
builder, so that a run in which some are replaced by the others gives the same at every step, and
the same function at its end. -/
theorem counterparts_agree (b : Builder type) :
    (∀ {t : Scalar} (i : Typed.Instr (.scalar t)), b.tryBind i.erase =
      ((b.bind i).1.map fun n => (Typed.Operand.name n).erase, (b.bind i).2)) ∧
    (∀ i : Typed.Instr .void, b.tryDiscard i.erase = b.discard i) ∧
    (∀ t : Typed.Terminator type.ret, b.tryTerminate t.erase = b.terminate t) ∧
    ∀ ops mixed : List (Op type), Mixed ops mixed →
      b.outcomes mixed = b.outcomes ops ∧ b.performAll mixed = b.performAll ops ∧
        (b.performAll mixed).finish = (b.performAll ops).finish := by
  refine ⟨b.tryBind_erase, b.tryDiscard_erase, b.tryTerminate_erase, fun ops mixed h => ?_⟩
  obtain ⟨houtcomes, hleft⟩ := h.run_eq b
  exact ⟨houtcomes, hleft, congrArg finish hleft⟩

/-- A tenth of its argument, logged twice. The phi fails, since nothing can arrive at the entry, and
so does the last call, since no block is open any more. -/
def tenthTyped : List (Op ⟨[.f32], .scalar .f32⟩) :=
  let x : Typed.Operand .f32 := .name ⟨⟨0⟩, .number 0⟩
  let tenth : Typed.Operand .f32 := .name ⟨⟨0⟩, .number 2⟩
  [.bind (.phi [(x, "entry")] (List.cons_ne_nil _ _)),
    .bind (.binary .mul x (.literal (.single ⟨0x3dcccccd⟩)) (by decide)),
    .discard (.call "log" (.cons tenth .nil) [.noUnwind, .noUnwind]),
    .terminate (.retVal tenth),
    .discard (.call "log" (.cons tenth .nil) [])]

/-- The same with erased code at every other place. -/
def tenthMixed : List (Op ⟨[.f32], .scalar .f32⟩) :=
  tenthTyped.zipWith (fun op erase => if erase then op.erased else op)
    [true, false, true, false, true]

theorem counterparts_agree_tenth : Mixed tenthTyped tenthMixed ∧
    (new _ ⟨0⟩ "f").1.outcomes tenthTyped = [.error (.phiInEntryBlock "f"),
      .ok (.value (.loc .f32 (.number 2) (some ⟨0⟩))), .ok .nothing, .ok .nothing,
      .error .noOpenBlock] ∧
    (new _ ⟨0⟩ "f").1.outcomes tenthMixed = (new _ ⟨0⟩ "f").1.outcomes tenthTyped ∧
    ((new _ ⟨0⟩ "f").1.performAll tenthMixed).finish =
      ((new _ ⟨0⟩ "f").1.performAll tenthTyped).finish := by
  have hmixed : Mixed tenthTyped tenthMixed :=
    .cons (.inr rfl) <| .cons (.inl rfl) <| .cons (.inr rfl) <| .cons (.inl rfl) <|
      .cons (.inr rfl) .nil
  obtain ⟨-, -, -, hruns⟩ := counterparts_agree (new ⟨[.f32], .scalar .f32⟩ ⟨0⟩ "f").1
  obtain ⟨houtcomes, -, hfinish⟩ := hruns tenthTyped tenthMixed hmixed
  exact ⟨hmixed, by decide, houtcomes, hfinish⟩

end Builder

end TypedSSA
