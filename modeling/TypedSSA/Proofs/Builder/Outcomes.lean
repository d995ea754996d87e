import TypedSSA.Proofs.Builder.Runs

/-!
# Outcomes of a run

`Builder.outcomes` are what the operations of a run give, beside the builder that they leave
(`Builder.performAll`).

`Builder.Effect` ties the two together for one operation. If it fails it leaves all blocks alone. If
it succeeds, it puts an instruction that reads the values it was given into the open block, and
gives the local for the result if there is one; or closes the block with a terminator that reads
them; or opens a block; or gives a label.
-/

namespace TypedSSA

theorem getElem?_concat_cases {α : Type} {l : List α} {a b : α} {i : Nat}
    (h : (l ++ [a])[i]? = some b) : i < l.length ∧ l[i]? = some b ∨ i = l.length ∧ b = a := by
  rcases Nat.lt_or_ge i l.length with hi | hi
  · exact .inl ⟨hi, by rwa [List.getElem?_append_left hi] at h⟩
  · have hlt := (List.getElem?_eq_some_iff.mp h).1
    rw [List.length_append, List.length_singleton] at hlt
    obtain rfl : i = l.length := by omega
    rw [List.getElem?_concat_length, Option.some.injEq] at h
    exact .inr ⟨rfl, h.symm⟩

/-- What holds of every element and those before it, for a list with one more at its end. -/
theorem of_forall_get_concat {α : Type} {P : List α → α → Prop} {l : List α} {a : α}
    (h : ∀ i : Fin (l ++ [a]).length, P ((l ++ [a]).take i) ((l ++ [a]).get i)) :
    (∀ i : Fin l.length, P (l.take i) (l.get i)) ∧ P l a := by
  constructor
  · intro i
    have hi := h ⟨i, by rw [List.length_append]; omega⟩
    rwa [List.get_eq_getElem, List.getElem_append_left i.isLt,
      List.take_append_of_le_length (Nat.le_of_lt i.isLt)] at hi
  · have hlast := h ⟨l.length, by simp⟩
    rwa [List.get_eq_getElem, List.getElem_concat_length rfl, List.take_left] at hlast

namespace Builder

variable {type : FuncType}

/-- What these operations give, in order, each performed on the builder that those before it
leave. -/
def outcomes (b : Builder type) : List (Op type) → List (Except Fault Answer)
  | [] => []
  | op :: ops => (b.perform op).1 :: (b.perform op).2.outcomes ops

theorem performAll_append (b : Builder type) (ops later : List (Op type)) :
    b.performAll (ops ++ later) = (b.performAll ops).performAll later :=
  List.foldl_append

theorem performAll_concat (b : Builder type) (ops : List (Op type)) (op : Op type) :
    b.performAll (ops ++ [op]) = ((b.performAll ops).perform op).2 :=
  b.performAll_append ops [op]

theorem outcomes_append (b : Builder type) (ops later : List (Op type)) :
    b.outcomes (ops ++ later) = b.outcomes ops ++ (b.performAll ops).outcomes later := by
  induction ops generalizing b with
  | nil => rfl
  | cons op ops ih => exact congrArg ((b.perform op).1 :: ·) (ih (b.perform op).2)

theorem outcomes_concat (b : Builder type) (ops : List (Op type)) (op : Op type) :
    b.outcomes (ops ++ [op]) = b.outcomes ops ++ [((b.performAll ops).perform op).1] :=
  b.outcomes_append ops [op]

/-- The values that an operation is given to read. -/
def Op.operands : Op type → List Value
  | .newLabel _ => []
  | .bind i => i.erase.operands
  | .bindAs _ i => i.erase.operands
  | .discard i => i.erase.operands
  | .tryBind i => i.operands
  | .tryDiscard i => i.operands
  | .terminate t => t.erase.operands
  | .tryTerminate t => t.operands
  | .startBlock _ => []

/-- The instruction that an operation is to put into a block, if it is to put one there. -/
def Op.instr? : Op type → Option Instr
  | .bind i => some i.erase
  | .bindAs _ i => some i.erase
  | .discard i => some i.erase
  | .tryBind i => some i
  | .tryDiscard i => some i
  | _ => none

end Builder

/-- What an operation gives that has put this instruction into a block of the body with this
scope. -/
def Named.answer (scope : Scope) : Named → Builder.Answer
  | bind name ty _ => .value (.loc ty name (some scope))
  | discard _ => .nothing

namespace Builder

variable {type : FuncType}

/-- What an operation can give, and the builder that it leaves then. -/
inductive Effect (b : Builder type) (op : Op type) : Except Fault Answer × Builder type → Prop where
  | fail (fault : Fault) (later : Supply) : Effect b op (.error fault, { b with names := later })
  | label (l : Label) (later : Supply) : Effect b op (.ok (.label l), { b with names := later })
  | push (later : Supply) (block : OpenBlock) (n : Named) (isOpen : b.current = some block)
      (operands : n.instr.operands = op.operands) (instr : op.instr? = some n.instr) :
      Effect b op (.ok (n.answer later.scope), { b with
        names := later
        current := some { block with body := block.body ++ [n] } })
  | close (block : OpenBlock) (t : Terminator) (isOpen : b.current = some block)
      (operands : t.operands = op.operands) :
      Effect b op (.ok .nothing, { b with
        blocks := b.blocks ++ [⟨block.label, block.body, t⟩]
        current := none })
  | start (label : Label) (isClosed : b.current = none) :
      Effect b op (.ok .nothing, { b with
        labels := label :: b.labels
        current := some ⟨label, []⟩ })

/-- An instruction is put at the end of the open block, or the builder stays as it is. -/
theorem push_cases (b : Builder type) (n : Named) :
    (∃ fault, b.push n = (.error fault, b)) ∨
      ∃ block, b.current = some block ∧ b.push n = (.ok (), { b with
        current := some { block with body := block.body ++ [n] } }) := by
  unfold push
  split
  · exact .inl ⟨_, rfl⟩
  · rename_i block hblock
    split
    · exact .inl ⟨_, rfl⟩
    · split
      · exact .inl ⟨_, rfl⟩
      · exact .inr ⟨block, hblock, rfl⟩

/-- Putting an instruction into the open block, with names taken before. What is given is made of
what `push` gives. -/
theorem Effect.of_push {b ready : Builder type} {later : Supply} {op : Op type} {n : Named}
    (names : ready = { b with names := later }) (operands : n.instr.operands = op.operands)
    (instr : op.instr? = some n.instr)
    {g : Except Fault Unit → Except Fault Answer} (fail : ∀ fault, g (.error fault) = .error fault)
    (ok : g (.ok ()) = .ok (n.answer (ready.push n).2.names.scope)) :
    Effect b op (g (ready.push n).1, (ready.push n).2) := by
  obtain ⟨fault, h⟩ | ⟨block, hblock, h⟩ := ready.push_cases n
  · rw [h, fail, names]
    exact .fail fault later
  · rw [h] at ok
    rw [h, ok]
    subst names
    exact .push later block n hblock operands instr

theorem Effect.of_close (b : Builder type) {op : Op type} {t : Terminator}
    (operands : t.operands = op.operands) :
    Effect b op ((b.close t).1.map fun _ => .nothing, (b.close t).2) := by
  unfold Builder.close
  split
  · exact .fail _ b.names
  · rename_i block hblock
    exact .close block t hblock operands

/-- What an operation gives goes with what it does. -/
theorem effect_perform (b : Builder type) (op : Op type) : Effect b op (b.perform op) := by
  cases op with
  | newLabel hint => exact .label _ _
  | @bind t i =>
    exact .of_push rfl (n := .bind b.names.fresh.1 t i.erase) rfl rfl
      (g := fun o => (o.map fun _ => _).map _) (fun _ => rfl) rfl
  | @bindAs x t i =>
    simp only [perform, bindAs]
    obtain ⟨fault, hx⟩ | ⟨later, hx, -⟩ := b.names.symbol_cases x
    · rw [hx]
      exact .fail fault _
    · rw [hx]
      exact .of_push rfl (n := .bind (.symbol x) t i.erase) rfl rfl
        (g := fun o => (o.map fun _ => _).map _) (fun _ => rfl) rfl
  | discard i =>
    exact .of_push rfl (n := .discard i.erase) rfl rfl (g := fun o => o.map _) (fun _ => rfl) rfl
  | tryBind i =>
    simp only [perform, tryBind]
    cases hi : i.checkBind with
    | error fault => exact .fail fault _
    | ok t =>
      exact .of_push rfl (n := .bind b.names.fresh.1 t i) rfl rfl
        (g := fun o => (o.map fun _ => _).map _) (fun _ => rfl) rfl
  | tryDiscard i =>
    simp only [perform, tryDiscard]
    cases hi : i.checkDiscard with
    | error fault => exact .fail fault b.names
    | ok _ =>
      exact .of_push rfl (n := .discard i) rfl rfl (g := fun o => o.map _) (fun _ => rfl) rfl
  | terminate t => exact .of_close b rfl
  | tryTerminate t =>
    simp only [perform, tryTerminate]
    cases ht : t.check type.ret with
    | error fault => exact .fail fault b.names
    | ok _ => exact .of_close b rfl
  | startBlock label =>
    simp only [perform, startBlock]
    split
    · exact .fail _ b.names
    · rename_i hclosed
      split
      · exact .fail _ b.names
      · exact .start label hclosed

end Builder

end TypedSSA
