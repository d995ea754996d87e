import TypedSSA.Proofs.LLVM.Triple

/-!
# What a target asks and keeps

A target that has been described keeps what it was told (`Target.description_describe`). What
compiling comes to after that is known from the checks: nothing at all if the module fails one
(`Target.compile_of_error`), and the lowering of the module otherwise (`Target.compile_of_ok`).

The calls fall apart accordingly. Describing a machine sets LLVM up unless it is, and then asks each
thing at most once, also if an answer is an error (`queryDescription_asked`). Compiling a module
does neither (`compileModule_compiling`), and it never fails for a reason that the checks are there
for.
-/

namespace TypedSSA

namespace Module

variable {m : Module} {target : TargetDesc}

theorem checkFor_eq_ok_iff :
    m.checkFor target = .ok () ↔ m.target = target ∧ m.validate = .ok () := by
  unfold checkFor checkTarget
  by_cases htarget : m.target = target
  · rw [if_pos htarget]
    cases hvalidate : m.validate with
    | ok u => exact iff_of_true rfl ⟨htarget, rfl⟩
    | error fault => exact iff_of_false nofun fun h => nomatch h.2
  · rw [if_neg htarget]
    exact iff_of_false nofun fun h => htarget h.1

/-- A module passes the checks if there is a target to check it for. -/
theorem bind_checkFor_eq_ok_iff {d : Except CodegenError TargetDesc} :
    d.bind m.checkFor = .ok () ↔ ∃ desc, d = .ok desc ∧ m.target = desc ∧ m.validate = .ok () := by
  constructor
  · intro h
    cases d with
    | ok desc => exact ⟨desc, rfl, checkFor_eq_ok_iff.mp h⟩
    | error e => cases h
  · rintro ⟨desc, rfl, h⟩
    exact checkFor_eq_ok_iff.mpr h

/-- A module is refused for its target only if that is another one. -/
theorem target_ne_of_checkFor {module machine : String}
    (h : m.checkFor target = .error (.targetMismatch module machine)) : m.target ≠ target := by
  intro htarget
  rw [checkFor, checkTarget, if_pos htarget] at h
  cases hvalidate : m.validate with
  | ok u =>
    rw [hvalidate] at h
    cases h
  | error fault =>
    rw [hvalidate] at h
    cases h

end Module

namespace LLVM

namespace Target

variable {t : Target} {m : Module} {r : Replies} {c : Counters}

/-- A target that has been described gives the description again, and LLVM is not asked. -/
theorem describe_of_described {d : Except CodegenError TargetDesc} (h : t.description = some d) :
    t.describe = pure (d, t) := by
  rw [describe, h]

/-- What a target has been told of its machine it keeps. -/
theorem description_describe (t : Target) (r : Replies) (c : Counters) :
    (t.describe r c).value.2.description = some (t.describe r c).value.1 := by
  cases h : t.description with
  | some d =>
    rw [describe_of_described h]
    exact h
  | none =>
    rw [describe, h]
    rfl

theorem newModule_apply (t : Target) (name : String) (r : Replies) (c : Counters) :
    t.newModule name r c = ⟨((t.describe r c).value.1.map (Module.new name),
      (t.describe r c).value.2), (t.describe r c).counters, (t.describe r c).calls⟩ := by
  unfold newModule
  rw [Emit.bind_apply]
  generalize t.describe r c = described
  obtain ⟨⟨d, t'⟩, c', asked⟩ := described
  exact congrArg (Emitted.mk _ _) (List.append_nil asked)

/-- A module that fails a check is not compiled. -/
theorem compile_of_error {e : CodegenError}
    (h : (t.describe r c).value.1.bind m.checkFor = .error e) :
    t.compile m r c = ⟨(.error e, (t.describe r c).value.2), (t.describe r c).counters,
      (t.describe r c).calls⟩ := by
  unfold compile
  rw [Emit.bind_apply]
  generalize t.describe r c = described at h ⊢
  obtain ⟨⟨d, t'⟩, c', asked⟩ := described
  dsimp only at h ⊢
  rw [h]
  exact congrArg (Emitted.mk _ _) (List.append_nil asked)

/-- A module that passes the checks is compiled from where describing the target has left off. -/
theorem compile_of_ok (h : (t.describe r c).value.1.bind m.checkFor = .ok ()) :
    t.compile m r c =
      let compiled := (compileModule (t.describe r c).value.2.options.level m).run r
        (t.describe r c).counters
      ⟨(compiled.value, (t.describe r c).value.2), compiled.counters,
        (t.describe r c).calls ++ compiled.calls⟩ := by
  unfold compile
  rw [Emit.bind_apply]
  generalize t.describe r c = described at h ⊢
  obtain ⟨⟨d, t'⟩, c', asked⟩ := described
  dsimp only at h ⊢
  rw [h]
  dsimp only
  rw [Emit.bind_apply]
  generalize ExceptT.run (compileModule t'.options.level m) r c' = compiled
  exact congrArg (fun calls => Emitted.mk _ _ (asked ++ calls)) (List.append_nil compiled.calls)

end Target

/-! ## Describing a machine -/

/-- What is asked of LLVM to describe a machine, and given back to it then. -/
inductive Inquiry where
  | host (fact : HostFact)
  | target
  | machine
  | data
  | layout
  | disposeData
  | disposeMachine
deriving DecidableEq, Repr

namespace Call

def inquiry? : Call → Option Inquiry
  | host fact => some (.host fact)
  | getTargetFromTriple _ => some .target
  | createTargetMachine .. => some .machine
  | createTargetData .. => some .data
  | copyTargetData _ => some .layout
  | disposeTargetData _ => some .disposeData
  | disposeTargetMachine _ => some .disposeMachine
  | _ => none

def setup? : Call → Option Setup
  | setup part => some part
  | _ => none

end Call

/-- All that is set up. -/
def setups : List Call :=
  [.setup .targets, .setup .targetInfos, .setup .targetMCs, .setup .asmPrinters,
    .setup .linkInMCJIT]

/-- LLVM is set up, and after the calls in `before` just these things have been asked, in order. -/
def Inquired (before : List Call) (asked : List Inquiry) : Assertion := fun counters past =>
  counters.isSetUp = true ∧ ∃ calls, past = before ++ calls ∧
    calls.map Call.inquiry? = asked.map some

/-- LLVM has been set up if it was not, and after that no thing has been asked twice. -/
def Asked (isSetUp : Bool) : Assertion := fun counters past =>
  ∃ asked : List Inquiry, asked.Nodup ∧
    Inquired (if isSetUp then [] else setups) asked counters past

section Asking

variable {before : List Call} {asked : List Inquiry}

theorem Inquired.concat {c : Call} {q : Inquiry} {counters counters' : Counters} {past : List Call}
    (h : Inquired before asked counters past) (hset : counters'.isSetUp = counters.isSetUp)
    (hc : c.inquiry? = some q) : Inquired before (asked ++ [q]) counters' (past ++ [c]) := by
  obtain ⟨hsetUp, calls, rfl, hcalls⟩ := h
  refine ⟨hset.trans hsetUp, calls ++ [c], List.append_assoc _ _ _, ?_⟩
  rw [List.map_append, List.map_append, hcalls, List.map_singleton, hc, List.map_singleton]

theorem call_inquired {c : Call} {q : Inquiry} (hc : c.inquiry? = some q) :
    Emit.Triple (Inquired before asked) (Emit.call c) fun _ => Inquired before (asked ++ [q]) :=
  .call fun _ _ h => h.concat rfl hc

theorem create_inquired {count : Counters → Nat} {next : Counters → Counters} {c : Nat → Call}
    {q : Inquiry} (hset : ∀ counters, (next counters).isSetUp = counters.isSetUp)
    (hc : ∀ n, (c n).inquiry? = some q) :
    Emit.Triple (Inquired before asked) (Emit.create count next c)
      fun _ => Inquired before (asked ++ [q]) :=
  .create fun counters _ h => h.concat (hset counters) (hc _)

theorem setUp_inquired (isSetUp : Bool) :
    Emit.Triple (fun counters past => counters.isSetUp = isSetUp ∧ past = []) Emit.setUp
      fun _ => Inquired (if isSetUp then [] else setups) [] := by
  rintro r counters past ⟨rfl, rfl⟩
  unfold Emit.setUp
  cases h : counters.isSetUp
  · exact ⟨rfl, [], rfl, rfl⟩
  · exact ⟨h, [], rfl, rfl⟩

/-- What is asked of the host, if the machine is to be the host. -/
def hostInquiries (options : Options) : List Inquiry :=
  match options.triple with
  | some _ => []
  | none => [.host .triple, .host .cpu, .host .features]

/-- Choosing a machine asks the host what it is, unless the options say what the machine is to be.
-/
theorem chooseMachine_inquired (options : Options) :
    Emit.Triple (Inquired before []) (chooseMachine options)
      fun _ => Inquired before (hostInquiries options) := by
  unfold chooseMachine hostInquiries
  cases options.triple with
  | some triple => exact .pure fun _ _ h => h
  | none =>
    exact .bind .replies fun r => .bind (call_inquired rfl) fun _ =>
      .bind (call_inquired rfl) fun _ => .bind (call_inquired rfl) fun _ => .pure fun _ _ h => h

/-- Whatever part of the description is asked for, no inquiry is made twice. -/
theorem nodup_inquiries (options : Options) {rest : List Inquiry}
    (h : rest.Sublist [.target, .machine, .data, .layout, .disposeData, .disposeMachine]) :
    (hostInquiries options ++ rest).Nodup := by
  refine List.Nodup.sublist (h.append_left (hostInquiries options)) ?_
  unfold hostInquiries
  split <;> decide

end Asking

/-- Describing a target sets LLVM up if that has not been done, and asks each thing once at most,
whether it succeeds or not. -/
theorem queryDescription_asked (isSetUp : Bool) (options : Options) :
    Lower.Triple (fun counters past => counters.isSetUp = isSetUp ∧ past = [])
      (queryDescription options) (fun _ => Asked isSetUp) fun _ => Asked isSetUp := by
  refine .bind (.lift (setUp_inquired isSetUp)) fun _ => .bind .replies fun r =>
    .bind (.lift (chooseMachine_inquired options)) fun names => ?_
  obtain ⟨triple, cpu, features⟩ := names
  have hhost : ∀ (message : String) counters past, Inquired (if isSetUp then [] else setups)
      (hostInquiries options) counters past → Asked isSetUp counters past := fun _ _ _ h =>
    ⟨_, by simpa using nodup_inquiries options (List.nil_sublist _), h⟩
  refine .bind (.checkText hhost) fun _ => .bind (.checkText hhost) fun _ =>
    .bind (.checkText hhost) fun _ => .bind (.lift (call_inquired rfl)) fun _ => ?_
  refine .bind (.failOn fun _ _ _ h => ⟨_, nodup_inquiries options (by decide), h⟩) fun _ => ?_
  refine .bind (.lift (create_inquired (fun _ => rfl) fun _ => rfl)) fun machine =>
    .bind (.lift (create_inquired (fun _ => rfl) fun _ => rfl)) fun data => ?_
  refine .bind (.lift (call_inquired rfl)) fun _ => .bind (.lift (call_inquired rfl)) fun _ =>
    .bind (.lift (call_inquired rfl)) fun _ => .pure fun _ _ h => ⟨_, ?_, h⟩
  simpa using nodup_inquiries options (List.Sublist.refl _)

theorem Call.setup?_of_inquiry? {c : Call} {q : Inquiry} (h : c.inquiry? = some q) :
    c.setup? = none := by
  cases c <;> first | rfl | cases h

/-- Nothing else is set up, and no thing is asked twice. -/
theorem Asked.exists_rest {isSetUp : Bool} {counters : Counters} {past : List Call}
    (h : Asked isSetUp counters past) : counters.isSetUp = true ∧
      ∃ rest, past = (if isSetUp then [] else setups) ++ rest ∧
        (∀ c ∈ rest, c.setup? = none) ∧ (rest.filterMap Call.inquiry?).Nodup := by
  obtain ⟨asked, hnodup, hset, rest, hpast, hrest⟩ := h
  refine ⟨hset, rest, hpast, fun c hc => ?_, ?_⟩
  · have hmem : c.inquiry? ∈ asked.map some := hrest ▸ List.mem_map_of_mem hc
    obtain ⟨q, -, hq⟩ := List.mem_map.mp hmem
    exact Call.setup?_of_inquiry? hq.symm
  · have hasked : rest.filterMap Call.inquiry? = asked :=
      calc rest.filterMap Call.inquiry?
        _ = (rest.map Call.inquiry?).filterMap id := by rw [List.filterMap_map]; rfl
        _ = asked := by rw [hrest, List.filterMap_map]; exact List.filterMap_some
    rw [hasked]
    exact hnodup

/-- This is also what describing a target does the first time, which keeps the description. -/
theorem Target.describe_asked {t : Target} (h : t.description = none) (r : Replies) (c : Counters) :
    Asked c.isSetUp (t.describe r c).counters (t.describe r c).calls := by
  have htriple : Emit.Triple (fun counters past => counters.isSetUp = c.isSetUp ∧ past = [])
      t.describe fun _ => Asked c.isSetUp := by
    rw [describe, h]
    refine .bind (queryDescription_asked c.isSetUp t.options) fun d => .pure fun _ _ hd => ?_
    cases d <;> exact hd
  exact htriple r c [] ⟨rfl, rfl⟩

/-! ## Compiling a module -/

/-- Neither sets LLVM up nor asks about a machine. -/
def Call.OfCompilation (c : Call) : Prop := c.setup? = none ∧ c.inquiry? = none

/-- Nothing of what is asked to describe a target is among the calls of a compilation. -/
theorem Asked.not_ofCompilation {isSetUp : Bool} {counters : Counters} {past : List Call}
    (h : Asked isSetUp counters past) {c : Call} (hc : c ∈ past) : ¬ c.OfCompilation := by
  obtain ⟨asked, -, -, calls, rfl, hcalls⟩ := h
  rintro ⟨hsetup, hinquiry⟩
  rcases List.mem_append.mp hc with hc | hc
  · cases isSetUp
    · have hall : ∀ c ∈ setups, c.setup? ≠ none := by decide
      exact hall c hc hsetup
    · cases hc
  · have hmem : c.inquiry? ∈ asked.map some := hcalls ▸ List.mem_map_of_mem hc
    rw [hinquiry, List.mem_map] at hmem
    obtain ⟨q, -, hq⟩ := hmem
    cases hq

/-- Describing a machine is no part of compiling a module. -/
theorem Target.not_ofCompilation_of_mem_describe (t : Target) (r : Replies) (counters : Counters)
    {c : Call} (hc : c ∈ (t.describe r counters).calls) : ¬ c.OfCompilation := by
  cases h : t.description with
  | some d =>
    rw [describe_of_described h] at hc
    cases hc
  | none => exact (describe_asked h r counters).not_ofCompilation hc

/-- No calls have been made but such, and LLVM is set up or not as it was. -/
def Compiling (isSetUp : Bool) : Assertion := fun counters past =>
  counters.isSetUp = isSetUp ∧ ∀ c ∈ past, c.OfCompilation

section Compiling

variable {isSetUp : Bool}

theorem Compiling.concat {counters counters' : Counters} {past : List Call} {c : Call}
    (h : Compiling isSetUp counters past) (hset : counters'.isSetUp = counters.isSetUp)
    (hc : c.OfCompilation) : Compiling isSetUp counters' (past ++ [c]) := by
  refine ⟨hset.trans h.1, fun c' hc' => ?_⟩
  rcases List.mem_append.mp hc' with hc' | hc'
  · exact h.2 c' hc'
  · rwa [List.mem_singleton.mp hc']

theorem call_compiling {c : Call} (hc : c.OfCompilation) :
    Emit.Triple (Compiling isSetUp) (Emit.call c) fun _ => Compiling isSetUp :=
  .call fun _ _ h => h.concat rfl hc

theorem create_compiling {count : Counters → Nat} {next : Counters → Counters} {c : Nat → Call}
    (hset : ∀ counters, (next counters).isSetUp = counters.isSetUp)
    (hc : ∀ n, (c n).OfCompilation) :
    Emit.Triple (Compiling isSetUp) (Emit.create count next c) fun _ => Compiling isSetUp :=
  .create fun counters _ h => h.concat (hset counters) (hc _)

theorem stable_compiling (builder : Nat) : Assertion.Stable (Compiling isSetUp) builder := by
  intro counters past c results hc h
  refine h.concat rfl ?_
  cases c with
  | build | addIncoming | addCallSiteAttribute | addCase => exact ⟨rfl, rfl⟩
  | _ => exact absurd hc id

open Lower

theorem lowerFunc_compiling (context : Nat) (callees : List (Label × FuncType)) (f : Func) :
    Keeps (Compiling isSetUp) (lowerFunc context callees f) := by
  refine .bind (.lift (create_compiling (fun _ => rfl) fun _ => ⟨rfl, rfl⟩)) fun builder =>
    .ensuring ?_ (call_compiling ⟨rfl, rfl⟩)
  have hstable : Assertion.Stable (Compiling isSetUp) builder := stable_compiling builder
  refine .bind (.forM fun b => ?_) fun _ => (Site.lowerBlocks_keeps hstable _ _ _).bind fun r =>
    .forM (Site.resolvePhi_keeps hstable _ _ _)
  exact (Keeps.checkText b.label).bind fun _ => .lift (call_compiling ⟨rfl, rfl⟩)

theorem addFunc_compiling (module : Nat) (symbol : Label) (type : TypedSSA.FuncType) :
    Keeps (Compiling isSetUp) (addFunc module symbol type) :=
  (Keeps.checkText symbol).bind fun _ => .lift (call_compiling ⟨rfl, rfl⟩)

theorem lowerModule_compiling (context : Nat) (m : Module) :
    Keeps (Compiling isSetUp) (lowerModule context m) := by
  refine (Keeps.checkText _).bind fun _ => (Keeps.checkText _).bind fun _ =>
    (Keeps.checkText _).bind fun _ => ?_
  refine .bind (.lift (create_compiling (fun _ => rfl) fun _ => ⟨rfl, rfl⟩)) fun module =>
    .bind (.lift (call_compiling ⟨rfl, rfl⟩)) fun _ =>
      .bind (.lift (call_compiling ⟨rfl, rfl⟩)) fun _ => ?_
  refine .bind (.onFailure ?_ (call_compiling ⟨rfl, rfl⟩)) fun _ => .pure
  exact .bind (.forM fun entry => addFunc_compiling module entry.1 entry.2) fun _ =>
    .bind (.forM fun f => addFunc_compiling module f.label f.type) fun _ =>
      .forM (lowerFunc_compiling context (callees m))

theorem settled_compiling : Assertion.Settled (Compiling isSetUp) := by
  intro counters counters' past c hc hset h
  refine h.concat hset ?_
  cases c with
  | verifyModule | createPassOptions | runPasses | disposePassOptions | createEngine
  | getFunctionAddress | disposeEngine | disposeModule | contextDispose => exact ⟨rfl, rfl⟩
  | _ => exact absurd hc id

/-- No part of compiling a module asks anything of the target again. -/
theorem compileModule_compiling (level : OptLevel) (m : Module) :
    Keeps (Compiling isSetUp) (compileModule level m) :=
  compileModule_triple (create_compiling (fun _ => rfl) fun _ => ⟨rfl, rfl⟩)
    (fun context => lowerModule_compiling context m) settled_compiling
    (fun _ _ _ _ h => ⟨h.1, h.2.concat rfl ⟨rfl, rfl⟩⟩) (fun _ _ _ he h => ⟨he, h⟩) level

end Compiling

end LLVM

end TypedSSA
