import TypedSSA.Proofs.Builder.Runs

/-!
# Names and labels as text

Names are printed, and labels are no more than text. So it is not enough that a supply issues no
name twice and counts its labels: no two of what it issues may have one text
(`Supply.texts_distinct`).

For names this comes from what a symbol may look like. A number is written with digits alone, and a
symbol does not start with one (`LocalName.text_inj`). A label may have any hint, one with dots and
digits at its end too. But what comes after the last dot of the label is its number, whatever the
hint is (`labelText_inj`).
-/

namespace TypedSSA

/-! ## Texts -/

/-- A number is written with digits alone. -/
theorem isDigit_of_mem_toString {n : Nat} {c : Char} (h : c ∈ (toString n).toList) :
    c.isDigit = true := by
  rw [Nat.toString_eq_repr, Nat.toList_repr] at h
  exact Nat.isDigit_of_mem_toDigits (by decide) (by decide) h

/-- The digits of a number read as a number are the number. -/
theorem toString_inj {m n : Nat} : toString m = toString n ↔ m = n := by
  refine ⟨fun h => ?_, congrArg toString⟩
  have hdigits : Nat.toDigits 10 m = Nat.toDigits 10 n := by
    rw [← Nat.toList_repr, ← Nat.toList_repr]
    exact congrArg String.toList h
  rw [← Nat.ofDigitChars_ten_toDigits (n := m), hdigits, Nat.ofDigitChars_ten_toDigits]

/-- The label with this number after a hint. -/
def labelText (hint : String) (number : Nat) : Label := hint ++ "." ++ toString number

theorem toList_labelText (hint : String) (number : Nat) :
    (labelText hint number).toList = hint.toList ++ '.' :: (toString number).toList := by
  rw [labelText, String.toList_append, String.toList_append, List.append_assoc]
  rfl

/-- A label can be taken apart at its last dot. -/
theorem labelText_inj {hint hint' : String} {number number' : Nat} :
    labelText hint number = labelText hint' number' ↔ hint = hint' ∧ number = number' := by
  have hend : ∀ hint number, (labelText hint number).toList.reverse.takeWhile Char.isDigit =
      (toString number).toList.reverse := by
    intro hint number
    rw [toList_labelText, List.reverse_append, List.reverse_cons, List.append_assoc,
      List.takeWhile_append_of_pos fun c hc => isDigit_of_mem_toString (List.mem_reverse.mp hc)]
    exact List.append_nil _
  constructor
  · intro h
    have hnumber : toString number = toString number' := by
      have hdigits := hend hint number
      rw [h, hend, List.reverse_inj, String.toList_inj] at hdigits
      exact hdigits.symm
    have hlist := congrArg String.toList h
    rw [toList_labelText, toList_labelText, hnumber, List.append_left_inj, String.toList_inj]
      at hlist
    exact ⟨hlist, toString_inj.mp hnumber⟩
  · rintro ⟨rfl, rfl⟩
    rfl

theorem labelText_ne_entryLabel (hint : String) (number : Nat) :
    labelText hint number ≠ entryLabel := by
  intro h
  have hdot : '.' ∈ entryLabel.toList := by
    rw [← h, toList_labelText]
    exact List.mem_append_right _ List.mem_cons_self
  revert hdot
  decide

/-- A symbol may spell a name if it is not empty and does not start with a digit. -/
theorem Supply.validSymbol_iff {x : String} : Supply.validSymbol x = true ↔
    x ≠ "" ∧ ∀ c, x.toList.head? = some c → ¬ ('0' ≤ c ∧ c ≤ '9') := by
  have hdigit : ∀ c : Char, c.isDigit = true ↔ '0' ≤ c ∧ c ≤ '9' := fun c => by
    rw [Char.isDigit, Bool.and_eq_true, decide_eq_true_iff, decide_eq_true_iff]
    rfl
  rw [Supply.validSymbol, ne_eq, ← String.toList_eq_nil_iff]
  cases x.toList with
  | nil => simp
  | cons c rest => simp [← hdigit]

/-- A name that a supply may issue. -/
def LocalName.Spelled : LocalName → Prop
  | number _ => True
  | symbol x => Supply.validSymbol x = true

/-- A number starts with a digit, and a symbol that may spell a name does not. -/
theorem toString_ne_of_validSymbol {x : String} (h : Supply.validSymbol x = true) (n : Nat) :
    toString n ≠ x := by
  rintro rfl
  rw [Supply.validSymbol] at h
  split at h
  · cases h
  · rename_i c rest hlist
    have hc : c.isDigit = true := isDigit_of_mem_toString (hlist ▸ List.mem_cons_self)
    rw [hc] at h
    cases h

/-- No two names that a supply may issue have one text. -/
theorem LocalName.text_inj {a b : LocalName} (ha : a.Spelled) (hb : b.Spelled)
    (h : a.text = b.text) : a = b := by
  cases a with
  | number m =>
    cases b with
    | number n => exact congrArg number (toString_inj.mp (String.append_right_inj _ |>.mp h))
    | symbol y => exact (toString_ne_of_validSymbol hb m (String.append_right_inj _ |>.mp h)).elim
  | symbol x =>
    cases b with
    | number n =>
      exact (toString_ne_of_validSymbol ha n (String.append_right_inj _ |>.mp h.symm)).elim
    | symbol y => exact congrArg symbol (String.append_right_inj _ |>.mp h)

namespace Supply

/-! ## One request -/

/-- What can be asked of a supply. A name is asked for at a type. -/
inductive Request where
  | fresh (ty : Scalar)
  | symbol (symbol : String) (ty : Scalar)
  | label (hint : String)

/-- What a supply gives for a request. -/
inductive Answer where
  | value (v : Value)
  | label (label : Label)
  | refused (fault : Fault)

namespace Answer

/-- The local that is issued, if one is. -/
def value? : Answer → Option Value
  | value issued => some issued
  | _ => none

def name? (a : Answer) : Option LocalName := a.value?.bind Value.name?

def label? : Answer → Option Label
  | label issued => some issued
  | _ => none

end Answer

/-- The answer to a request, and the supply after that. -/
def ask (s : Supply) : Request → Answer × Supply
  | .fresh ty => (.value (.loc ty s.fresh.1 (some s.scope)), s.fresh.2)
  | .symbol symbol ty =>
    match s.symbol symbol with
    | (.ok name, later) => (.value (.loc ty name (some s.scope)), later)
    | (.error fault, later) => (.refused fault, later)
  | .label hint => (.label (s.label hint).1, (s.label hint).2)

theorem symbol_eq_ok_iff {s : Supply} {x : String} : (s.symbol x).1 = .ok (.symbol x) ↔
    validSymbol x = true ∧ ¬ s.Issued (.symbol x) := by
  obtain ⟨hvalid, hnew, h⟩ | ⟨hnot, fault, h⟩ := s.symbol_spec x
  · rw [h]
    exact ⟨fun _ => ⟨hvalid, hnew⟩, fun _ => rfl⟩
  · rw [h]
    exact ⟨fun hok => (by cases hok), fun hboth => (hnot hboth).elim⟩

/-- A request is answered with a local whose name is new and may be spelled, with the label of the
next number, or not at all. -/
theorem ask_cases (s : Supply) (request : Request) :
    (∃ ty name later, s.ask request = (.value (.loc ty name (some s.scope)), later) ∧
      ¬ s.Issued name ∧ name.Spelled ∧
      (∀ other, later.Issued other ↔ other = name ∨ s.Issued other) ∧
      later.scope = s.scope ∧ later.nextLabel = s.nextLabel) ∨
    (∃ hint, s.ask request = (.label (labelText hint s.nextLabel),
      { s with nextLabel := s.nextLabel + 1 })) ∨
    (∃ fault, s.ask request = (.refused fault, s)) := by
  cases request with
  | fresh ty =>
    refine .inl ⟨ty, .number s.nextLocal, _, rfl, s.new_fresh.not_issued, trivial, fun other => ?_,
      rfl, rfl⟩
    cases other with
    | number k =>
      rw [LocalName.number.injEq]
      exact Nat.lt_succ_iff_lt_or_eq.trans or_comm
    | symbol x => exact ⟨.inr, fun h => h.resolve_left LocalName.noConfusion⟩
  | label hint => exact .inr (.inl ⟨hint, rfl⟩)
  | symbol x ty =>
    rw [ask]
    obtain ⟨hvalid, hnew, h⟩ | ⟨-, fault, h⟩ := s.symbol_spec x
    · rw [h]
      refine .inl ⟨ty, .symbol x, _, rfl, hnew, hvalid, fun other => ?_, rfl, rfl⟩
      cases other with
      | number k => exact ⟨.inr, fun h => h.resolve_left LocalName.noConfusion⟩
      | symbol y =>
        rw [LocalName.symbol.injEq]
        exact List.mem_cons
    · rw [h]
      exact .inr (.inr ⟨fault, rfl⟩)

theorem scope_ask (s : Supply) (request : Request) : (s.ask request).2.scope = s.scope := by
  obtain ⟨ty, name, later, h, -, -, -, hscope, -⟩ | ⟨hint, h⟩ | ⟨fault, h⟩ := s.ask_cases request
  · rw [h, hscope]
  · rw [h]
  · rw [h]

/-- A local that is issued carries the scope of the supply. -/
theorem scope?_of_ask {s : Supply} {request : Request} {v : Value}
    (h : (s.ask request).1.value? = some v) : v.scope? = some s.scope := by
  obtain ⟨ty, name, later, hask, -⟩ | ⟨hint, hask⟩ | ⟨fault, hask⟩ := s.ask_cases request
  · rw [hask] at h
    obtain rfl := Option.some.inj h
    rfl
  · rw [hask] at h
    cases h
  · rw [hask] at h
    cases h

theorem issued_ask_iff {s : Supply} {request : Request} {name : LocalName} :
    (s.ask request).2.Issued name ↔ (s.ask request).1.name? = some name ∨ s.Issued name := by
  obtain ⟨ty, new, later, h, -, -, hissued, -⟩ | ⟨hint, h⟩ | ⟨fault, h⟩ := s.ask_cases request
  · have hname : (Answer.value (.loc ty new (some s.scope))).name? = some new := rfl
    rw [h, hissued, hname, Option.some.injEq, eq_comm]
  · rw [h]
    cases name <;> exact (or_iff_right (Option.some_ne_none _).symm).symm
  · rw [h]
    exact (or_iff_right (Option.some_ne_none _).symm).symm

/-- A name is issued only if it is new and may be spelled. -/
theorem name_of_ask {s : Supply} {request : Request} {name : LocalName}
    (h : (s.ask request).1.name? = some name) : ¬ s.Issued name ∧ name.Spelled := by
  obtain ⟨ty, new, later, hask, hissued, hspelled, -⟩ | ⟨hint, hask⟩ | ⟨fault, hask⟩ :=
    s.ask_cases request
  · rw [hask] at h
    obtain rfl := Option.some.inj h
    exact ⟨hissued, hspelled⟩
  · rw [hask] at h
    cases h
  · rw [hask] at h
    cases h

theorem label_of_ask {s : Supply} {request : Request} {label : Label}
    (h : (s.ask request).1.label? = some label) : ∃ hint, label = labelText hint s.nextLabel := by
  obtain ⟨ty, name, later, hask, -⟩ | ⟨hint, hask⟩ | ⟨fault, hask⟩ := s.ask_cases request
  · rw [hask] at h
    cases h
  · rw [hask] at h
    exact ⟨hint, (Option.some.inj h).symm⟩
  · rw [hask] at h
    cases h

/-- The number of a label is used up. -/
theorem nextLabel_ask (s : Supply) (request : Request) : (s.ask request).2.nextLabel =
    s.nextLabel + (s.ask request).1.label?.toList.length := by
  obtain ⟨ty, name, later, h, -, -, -, -, hnext⟩ | ⟨hint, h⟩ | ⟨fault, h⟩ := s.ask_cases request
  · rw [h, hnext]
    rfl
  · rw [h]
    rfl
  · rw [h]
    rfl

/-! ## A run of requests -/

/-- What a supply gives for requests that are made one after the other. -/
def answers (s : Supply) : List Request → List Answer
  | [] => []
  | request :: rest => (s.ask request).1 :: (s.ask request).2.answers rest

/-- The supply after these requests. -/
def after (s : Supply) : List Request → Supply
  | [] => s
  | request :: rest => (s.ask request).2.after rest

/-- The names that are issued, in order. -/
def issuedNames (s : Supply) (requests : List Request) : List LocalName :=
  (s.answers requests).filterMap Answer.name?

/-- The labels that are issued, in order. -/
def issuedLabels (s : Supply) (requests : List Request) : List Label :=
  (s.answers requests).filterMap Answer.label?

theorem issuedNames_cons (s : Supply) (request : Request) (rest : List Request) :
    s.issuedNames (request :: rest) =
      (s.ask request).1.name?.toList ++ (s.ask request).2.issuedNames rest := by
  rw [issuedNames, answers, List.filterMap_cons]
  cases (s.ask request).1.name? <;> rfl

theorem issuedLabels_cons (s : Supply) (request : Request) (rest : List Request) :
    s.issuedLabels (request :: rest) =
      (s.ask request).1.label?.toList ++ (s.ask request).2.issuedLabels rest := by
  rw [issuedLabels, answers, List.filterMap_cons]
  cases (s.ask request).1.label? <;> rfl

theorem issued_after_iff {s : Supply} {requests : List Request} {name : LocalName} :
    (s.after requests).Issued name ↔ name ∈ s.issuedNames requests ∨ s.Issued name := by
  induction requests generalizing s with
  | nil => exact (or_iff_right List.not_mem_nil).symm
  | cons request rest ih =>
    rw [after, ih, issued_ask_iff, issuedNames_cons, List.mem_append, Option.mem_toList,
      or_assoc, or_left_comm]

theorem issuedNames_new {s : Supply} {requests : List Request} {name : LocalName}
    (h : name ∈ s.issuedNames requests) : ¬ s.Issued name ∧ name.Spelled := by
  induction requests generalizing s with
  | nil => exact (List.not_mem_nil h).elim
  | cons request rest ih =>
    rw [issuedNames_cons, List.mem_append] at h
    rcases h with h | h
    · exact name_of_ask (Option.mem_toList.mp h)
    · exact ⟨fun hs => (ih h).1 (issued_ask_iff.mpr (.inr hs)), (ih h).2⟩

theorem nodup_issuedNames (s : Supply) (requests : List Request) :
    (s.issuedNames requests).Nodup := by
  induction requests generalizing s with
  | nil => exact List.nodup_nil
  | cons request rest ih =>
    rw [issuedNames_cons]
    refine List.nodup_append.mpr ⟨Option.toList_nodup _, ih _, ?_⟩
    rintro name hhead later hlater rfl
    -- The first name is issued by now, and those of the rest are not.
    exact (issuedNames_new hlater).1 (issued_ask_iff.mpr (.inl (Option.mem_toList.mp hhead)))

/-- No number is used for two labels, as the numbers only grow. -/
theorem issuedLabels_numbered {s : Supply} {requests : List Request} {label : Label}
    (h : label ∈ s.issuedLabels requests) :
    ∃ hint number, s.nextLabel ≤ number ∧ label = labelText hint number := by
  induction requests generalizing s with
  | nil => exact (List.not_mem_nil h).elim
  | cons request rest ih =>
    rw [issuedLabels_cons, List.mem_append] at h
    rcases h with h | h
    · obtain ⟨hint, rfl⟩ := label_of_ask (Option.mem_toList.mp h)
      exact ⟨hint, s.nextLabel, Nat.le_refl _, rfl⟩
    · obtain ⟨hint, number, hle, rfl⟩ := ih h
      rw [nextLabel_ask] at hle
      exact ⟨hint, number, by omega, rfl⟩

theorem nodup_issuedLabels (s : Supply) (requests : List Request) :
    (s.issuedLabels requests).Nodup := by
  induction requests generalizing s with
  | nil => exact List.nodup_nil
  | cons request rest ih =>
    rw [issuedLabels_cons]
    refine List.nodup_append.mpr ⟨Option.toList_nodup _, ih _, ?_⟩
    rintro label hhead later hlater rfl
    obtain ⟨hint, rfl⟩ := label_of_ask (Option.mem_toList.mp hhead)
    obtain ⟨hint', number, hle, heq⟩ := issuedLabels_numbered hlater
    obtain ⟨-, rfl⟩ := labelText_inj.mp heq
    rw [nextLabel_ask, Option.mem_toList.mp hhead] at hle
    exact Nat.not_succ_le_self _ hle

theorem nextLabel_after (s : Supply) (requests : List Request) : (s.after requests).nextLabel =
    s.nextLabel + (s.issuedLabels requests).length := by
  induction requests generalizing s with
  | nil => rfl
  | cons request rest ih =>
    rw [after, ih, nextLabel_ask, issuedLabels_cons, List.length_append, Nat.add_assoc]

theorem not_issued_new (scope : Scope) (name : LocalName) : ¬ (new scope).Issued name := by
  cases name with
  | number k => exact Nat.not_lt_zero k
  | symbol x => exact List.not_mem_nil

/-- Whatever is asked of a supply, no two of the names that it issues print alike, and no two of the
labels are alike or the label of the entry. After that a symbol is issued as a name if and only if
it is not empty, does not start with a digit and has not been issued, and otherwise the supply stays
as it is. The supply counts no further than the names and labels that carry its numbers. -/
theorem texts_distinct (scope : Scope) (requests : List Request) :
    (((new scope).issuedNames requests).map LocalName.text).Nodup ∧
    ((new scope).issuedLabels requests).Nodup ∧
    entryLabel ∉ (new scope).issuedLabels requests ∧
    (∀ x, ((((new scope).after requests).symbol x).1 = .ok (.symbol x) ↔
        x ≠ "" ∧ (∀ c, x.toList.head? = some c → ¬ ('0' ≤ c ∧ c ≤ '9')) ∧
          .symbol x ∉ (new scope).issuedNames requests) ∧
      ((((new scope).after requests).symbol x).1 = .ok (.symbol x) ∨
        ∃ fault, ((new scope).after requests).symbol x =
          (.error fault, (new scope).after requests))) ∧
    (∀ k, .number k ∈ (new scope).issuedNames requests ↔
      k < ((new scope).after requests).nextLocal) ∧
    ((new scope).after requests).nextLabel = ((new scope).issuedLabels requests).length := by
  have hissued : ∀ name, ((new scope).after requests).Issued name ↔
      name ∈ (new scope).issuedNames requests := fun name =>
    issued_after_iff.trans (or_iff_left (not_issued_new scope name))
  refine ⟨?_, nodup_issuedLabels _ _, fun h => ?_, fun x => ⟨?_, ?_⟩,
    fun k => (hissued (.number k)).symm, ?_⟩
  · exact (nodup_issuedNames _ _).map_on fun a ha b hb =>
      LocalName.text_inj (issuedNames_new ha).2 (issuedNames_new hb).2
  · obtain ⟨hint, number, -, h⟩ := issuedLabels_numbered h
    exact labelText_ne_entryLabel hint number h.symm
  · rw [symbol_eq_ok_iff, hissued, validSymbol_iff, and_assoc]
  · obtain ⟨fault, h⟩ | ⟨later, h, -⟩ := ((new scope).after requests).symbol_cases x
    · exact .inr ⟨fault, h⟩
    · exact .inl (congrArg Prod.fst h)
  · rw [nextLabel_after]
    exact Nat.zero_add _

/-- Requests that look like what has been issued before them, or are refused. -/
def lookalikes : List Request :=
  [.fresh .i32, .symbol "0" .i32, .symbol "x" .i32, .symbol "x" .i64, .symbol "" .i32,
    .symbol "%0" .i32, .fresh .i32, .label "a", .label "a.0", .label "", .label "entry",
    .label ".2"]

theorem texts_distinct_lookalikes :
    ((new ⟨0⟩).issuedNames lookalikes).map LocalName.text = ["%0", "%x", "%%0", "%1"] ∧
    (new ⟨0⟩).issuedLabels lookalikes = ["a.0", "a.0.1", ".2", "entry.3", ".2.4"] ∧
    (["%0", "%x", "%%0", "%1"].Nodup ∧ ["a.0", "a.0.1", ".2", "entry.3", ".2.4"].Nodup) ∧
    (((new ⟨0⟩).after lookalikes).symbol "x0").1 = .ok (.symbol "x0") := by
  have hnames : ((new ⟨0⟩).issuedNames lookalikes).map LocalName.text =
      ["%0", "%x", "%%0", "%1"] := by decide
  have hlabels : (new ⟨0⟩).issuedLabels lookalikes =
      ["a.0", "a.0.1", ".2", "entry.3", ".2.4"] := by decide
  have h := texts_distinct ⟨0⟩ lookalikes
  rw [hnames, hlabels] at h
  refine ⟨hnames, hlabels, ⟨h.1, h.2.1⟩, (h.2.2.2.1 "x0").1.mpr ⟨by decide, ?_, by decide⟩⟩
  intro c hc
  obtain rfl : 'x' = c := Option.some.inj hc
  decide

end Supply

end TypedSSA
