import Mathlib.Data.List.Nodup
import TypedSSA.Proofs.LLVM.Target
import TypedSSA.Proofs.Module.Operations

/-!
# Sessions

A session has any number of targets and handles requests of them one after the other, in whatever
order they come: to describe a machine, to make a module for it, to compile a module. LLVM may reply
to each as it likes. What one request comes to is said by `Target.answer_spec`, and what holds
between requests is `Session.Inv`: LLVM has been set up before all else, and a target that has been
asked anything keeps its description, whatever it is.

So the description of a target never changes in a session, a failure to get one included, and no
module that was made for a target is refused for its target (`Session.run_descriptions`).
-/

namespace TypedSSA.LLVM

/-- What a target is asked for. -/
inductive Request where
  | describe
  | newModule (name : String)
  | compile (m : Module)

inductive Response where
  | description (d : Except CodegenError TargetDesc)
  | module (m : Except CodegenError Module)
  | code (j : Except CodegenError Jit)

/-- What a request comes to, and the target after it. -/
def Target.answer (t : Target) : Request → Emit (Response × Target)
  | .describe => Prod.map .description id <$> t.describe
  | .newModule name => Prod.map .module id <$> t.newModule name
  | .compile m => Prod.map .code id <$> t.compile m

/-- Is the answer to a request of a target with this description. For a module that passes the
checks that can be any code, or a failure of LLVM. -/
def Answers (d : Except CodegenError TargetDesc) : Request → Response → Prop
  | .describe, .description d' => d' = d
  | .newModule name, .module m => m = d.map (Module.new name)
  | .compile m, .code j =>
    (∀ e, d.bind m.checkFor = .error e → j = .error e) ∧
      (d.bind m.checkFor = .ok () → ∀ e, j = .error e → e.OfBackend)
  | _, _ => False

/-! ## One request -/

/-- A request is answered from the description. If LLVM is asked for more, then not to describe the
machine. -/
theorem Target.answer_spec (t : Target) (request : Request) (r : Replies) (c : Counters) :
    (t.answer request r c).value.2 = (t.describe r c).value.2 ∧
    Answers (t.describe r c).value.1 request (t.answer request r c).value.1 ∧
    (t.answer request r c).counters.isSetUp = (t.describe r c).counters.isSetUp ∧
    ∃ more, (t.answer request r c).calls = (t.describe r c).calls ++ more ∧
      ∀ call ∈ more, call.OfCompilation := by
  cases request with
  | describe =>
    rw [answer, Emit.map_apply]
    exact ⟨rfl, rfl, rfl, [], (List.append_nil _).symm, List.forall_mem_nil _⟩
  | newModule name =>
    rw [answer, Emit.map_apply, newModule_apply]
    exact ⟨rfl, rfl, rfl, [], (List.append_nil _).symm, List.forall_mem_nil _⟩
  | compile m =>
    rw [answer, Emit.map_apply]
    cases hcheck : (t.describe r c).value.1.bind m.checkFor with
    | error e =>
      rw [compile_of_error hcheck]
      refine ⟨rfl, ⟨fun e' he' => ?_, fun hok => ?_⟩, rfl, [], (List.append_nil _).symm,
        List.forall_mem_nil _⟩
      · cases hcheck.symm.trans he'
        rfl
      · cases hcheck.symm.trans hok
    | ok u =>
      obtain ⟨⟨hset, hcalls⟩, herror⟩ := (compileModule_compiling _ m).run r
        ⟨rfl, List.forall_mem_nil _⟩
      rw [compile_of_ok hcheck]
      refine ⟨rfl, ⟨fun e' he' => ?_, fun _ => herror⟩, hset, _, rfl, hcalls⟩
      cases hcheck.symm.trans he'

/-- What a request comes to in a session, where only a target that has never been asked anything has
no description. -/
structure Answered (t : Target) (counters : Counters) (request : Request)
    (emitted : Emitted (Response × Target)) (d : Except CodegenError TargetDesc) : Prop where
  description : emitted.value.2.description = some d
  kept (d' : Except CodegenError TargetDesc) : t.description = some d' → d = d'
  answers : Answers d request emitted.value.1
  isSetUp : emitted.counters.isSetUp = true
  calls : ∃ rest, emitted.calls = (if counters.isSetUp then [] else setups) ++ rest ∧
    (∀ call ∈ rest, call.setup? = none) ∧ (rest.filterMap Call.inquiry?).Nodup ∧
    (t.description ≠ none → rest.filterMap Call.inquiry? = [])

/-- A target answers according to its description, which it has already or gets now. -/
theorem Target.exists_answered {t : Target} {c : Counters}
    (h : t.description ≠ none → c.isSetUp = true) (request : Request) (r : Replies) :
    ∃ d, Answered t c request (t.answer request r c) d := by
  obtain ⟨htarget, hanswers, hset, more, hcalls, hmore⟩ := t.answer_spec request r c
  have hdescription : (t.answer request r c).value.2.description =
      some (t.describe r c).value.1 := by
    rw [htarget, t.description_describe r c]
  have hnone : more.filterMap Call.inquiry? = [] :=
    List.filterMap_eq_nil_iff.mpr fun call hcall => (hmore call hcall).2
  cases hd : t.description with
  | some d =>
    have hsetUp : c.isSetUp = true := h (by simp [hd])
    rw [describe_of_described hd] at hdescription hanswers hset hcalls
    refine ⟨d, hdescription, fun d' hd' => Option.some.inj (hd.symm.trans hd'), hanswers,
      hset.trans hsetUp, more, ?_, fun call hcall => (hmore call hcall).1, ?_, fun _ => hnone⟩
    · rw [hcalls, hsetUp]
      rfl
    · rw [hnone]
      exact List.nodup_nil
  | none =>
    obtain ⟨hsetUp, rest, hdescribe, hsetup, hnodup⟩ := (describe_asked hd r c).exists_rest
    refine ⟨_, hdescription, fun d' hd' => ?_, hanswers, hset.trans hsetUp, rest ++ more, ?_,
      fun call hcall => ?_, ?_, fun hnot => absurd hd hnot⟩
    · cases hd.symm.trans hd'
    · rw [hcalls, hdescribe, List.append_assoc]
    · rcases List.mem_append.mp hcall with hcall | hcall
      · exact hsetup call hcall
      · exact (hmore call hcall).1
    · rw [List.filterMap_append, hnone, List.append_nil]
      exact hnodup

/-! ## Runs -/

/-- A request of a target, and what LLVM replies meanwhile. -/
structure Event (ι : Type) where
  target : ι
  request : Request
  replies : Replies

/-- An event, what came of it and the calls made for it. -/
structure Entry (ι : Type) extends Event ι where
  response : Response
  calls : List Call

/-- Targets, and what has happened to them. -/
structure Session (ι : Type) where
  targets : ι → Target
  counters : Counters
  log : List (Entry ι)

namespace Session

variable {ι : Type}

def start (options : ι → Options) : Session ι := ⟨fun i => .new (options i), {}, []⟩

/-- What an event comes to. -/
def emitted (s : Session ι) (e : Event ι) : Emitted (Response × Target) :=
  (s.targets e.target).answer e.request e.replies s.counters

def entry (s : Session ι) (e : Event ι) : Entry ι :=
  { e with response := (s.emitted e).value.1, calls := (s.emitted e).calls }

def handle [DecidableEq ι] (s : Session ι) (e : Event ι) : Session ι where
  targets := Function.update s.targets e.target (s.emitted e).value.2
  counters := (s.emitted e).counters
  log := s.log ++ [s.entry e]

def run [DecidableEq ι] (s : Session ι) (events : List (Event ι)) : Session ι :=
  events.foldl handle s

/-- All calls made. -/
def calls (s : Session ι) : List Call := s.log.flatMap Entry.calls

/-- The calls made for a target. -/
def callsFor [DecidableEq ι] (s : Session ι) (i : ι) : List Call :=
  (s.log.filter fun entry => entry.target = i).flatMap Entry.calls

variable [DecidableEq ι]

/-- What holds between events. -/
structure Inv (s : Session ι) : Prop where
  unset : s.counters.isSetUp = false → s.log = []
  set : s.counters.isSetUp = true → ∃ rest, s.calls = setups ++ rest ∧
    ∀ call ∈ rest, call.setup? = none
  undescribed (i : ι) : (s.targets i).description = none → ∀ entry ∈ s.log, entry.target ≠ i
  described (i : ι) (d : Except CodegenError TargetDesc) : (s.targets i).description = some d →
    s.counters.isSetUp = true ∧
      ∀ entry ∈ s.log, entry.target = i → Answers d entry.request entry.response
  once (i : ι) : ((s.callsFor i).filterMap Call.inquiry?).Nodup

theorem inv_start (options : ι → Options) : (start options).Inv where
  unset _ := rfl
  set h := nomatch h
  undescribed _ _ := List.forall_mem_nil _
  described _ _ h := nomatch h
  once _ := List.nodup_nil

/-! One event. -/

section Handle

variable (s : Session ι) (e : Event ι)

theorem mem_log_handle {entry : Entry ι} :
    entry ∈ (s.handle e).log ↔ entry ∈ s.log ∨ entry = s.entry e := by
  rw [handle, List.mem_append, List.mem_singleton]

theorem targets_handle : (s.handle e).targets e.target = (s.emitted e).value.2 :=
  Function.update_self ..

theorem targets_handle_of_ne {i : ι} (h : i ≠ e.target) : (s.handle e).targets i = s.targets i :=
  Function.update_of_ne h ..

theorem calls_handle : (s.handle e).calls = s.calls ++ (s.emitted e).calls := by
  simp [calls, handle, entry]

theorem callsFor_handle (i : ι) :
    (s.handle e).callsFor i = s.callsFor i ++ if e.target = i then (s.emitted e).calls else [] := by
  by_cases hi : e.target = i <;> simp [callsFor, handle, entry, hi]

end Handle

theorem filterMap_inquiry?_setups (isSetUp : Bool) :
    (if isSetUp then [] else setups).filterMap Call.inquiry? = [] := by
  cases isSetUp <;> rfl

/-- What has been asked for a target that has been asked before stays all. -/
theorem Inv.once_handle {s : Session ι} (h : s.Inv) {e : Event ι}
    {d : Except CodegenError TargetDesc}
    (he : Answered (s.targets e.target) s.counters e.request (s.emitted e) d) (i : ι) :
    (((s.handle e).callsFor i).filterMap Call.inquiry?).Nodup := by
  obtain ⟨rest, hcalls, -, hnodup, hnone⟩ := he.calls
  rw [callsFor_handle, List.filterMap_append]
  by_cases hi : e.target = i
  · subst hi
    rw [if_pos rfl, hcalls, List.filterMap_append, filterMap_inquiry?_setups, List.nil_append]
    by_cases hdescription : (s.targets e.target).description = none
    · have hfor : s.callsFor e.target = [] := by
        rw [callsFor, List.filter_eq_nil_iff.mpr, List.flatMap_nil]
        intro entry hentry
        simpa using h.undescribed e.target hdescription entry hentry
      rw [hfor]
      exact hnodup
    · rw [hnone hdescription, List.append_nil]
      exact h.once e.target
  · rw [if_neg hi, List.filterMap_nil, List.append_nil]
    exact h.once i

/-- Only the target that is asked can change, and only if it has not been asked before. -/
theorem Inv.handle {s : Session ι} (h : s.Inv) (e : Event ι) : (s.handle e).Inv := by
  have hready : (s.targets e.target).description ≠ none → s.counters.isSetUp = true := by
    intro hsome
    obtain ⟨d, hd⟩ := Option.ne_none_iff_exists'.mp hsome
    exact (h.described e.target d hd).1
  obtain ⟨d, hanswered⟩ : ∃ d, Answered _ s.counters e.request (s.emitted e) d :=
    Target.exists_answered hready e.request e.replies
  refine ⟨fun hunset => ?_, fun _ => ?_, fun i hi entry hentry => ?_,
    fun i d' hi => ⟨hanswered.isSetUp, fun entry hentry htarget => ?_⟩, h.once_handle hanswered⟩
  · cases hunset.symm.trans hanswered.isSetUp
  · obtain ⟨rest, hcalls, hsetup, -⟩ := hanswered.calls
    rw [calls_handle, hcalls]
    -- if LLVM is not set up there have been no calls at all
    cases hset : s.counters.isSetUp with
    | false => exact ⟨rest, by rw [calls, h.unset hset]; rfl, hsetup⟩
    | true =>
      obtain ⟨before, hbefore, hnosetup⟩ := h.set hset
      refine ⟨before ++ rest, by rw [hbefore, List.append_assoc]; rfl, fun call hcall => ?_⟩
      exact (List.mem_append.mp hcall).elim (hnosetup call) (hsetup call)
  · by_cases hasked : i = e.target
    · subst hasked
      have hdescription : ((s.handle e).targets e.target).description = some d := by
        rw [targets_handle, hanswered.description]
      cases hi.symm.trans hdescription
    · rw [targets_handle_of_ne s e hasked] at hi
      rcases (s.mem_log_handle e).mp hentry with hentry | rfl
      · exact h.undescribed i hi entry hentry
      · exact fun heq => hasked heq.symm
  · by_cases hasked : i = e.target
    · subst hasked
      rw [targets_handle, hanswered.description] at hi
      obtain rfl := Option.some.inj hi
      rcases (s.mem_log_handle e).mp hentry with hentry | rfl
      -- an entry from before says that the target had this description already
      · cases hdescription : (s.targets e.target).description with
        | none => exact absurd htarget (h.undescribed e.target hdescription entry hentry)
        | some d' =>
          rw [hanswered.kept d' hdescription]
          exact (h.described e.target d' hdescription).2 entry hentry htarget
      · exact hanswered.answers
    · rw [targets_handle_of_ne s e hasked] at hi
      rcases (s.mem_log_handle e).mp hentry with hentry | rfl
      · exact (h.described i d' hi).2 entry hentry htarget
      · exact absurd htarget.symm hasked

/-- Events are handled one after the other, and each keeps the invariant. -/
theorem Inv.run {s : Session ι} (h : s.Inv) (events : List (Event ι)) : (s.run events).Inv := by
  induction events generalizing s with
  | nil => exact h
  | cons e events ih => exact ih (h.handle e)

theorem map_log_run (s : Session ι) (events : List (Event ι)) :
    (s.run events).log.map Entry.toEvent = s.log.map Entry.toEvent ++ events := by
  induction events generalizing s with
  | nil => exact (List.append_nil _).symm
  | cons e events ih =>
    refine (ih (s.handle e)).trans ?_
    rw [handle, List.map_append, List.append_assoc]
    rfl

/-- LLVM is set up before anything else is done. -/
theorem Inv.exists_calls {s : Session ι} (h : s.Inv) :
    ∃ rest, s.calls = (if s.log.isEmpty then [] else setups) ++ rest ∧
      ∀ call ∈ rest, call.setup? = none := by
  cases hset : s.counters.isSetUp with
  | false =>
    have hlog := h.unset hset
    exact ⟨[], by simp [calls, hlog], List.forall_mem_nil _⟩
  | true =>
    obtain ⟨rest, hcalls, hrest⟩ := h.set hset
    have hlog : s.log ≠ [] := by
      intro hlog
      rw [calls, hlog] at hcalls
      cases hcalls
    refine ⟨rest, ?_, hrest⟩
    rw [hcalls, if_neg (by simpa using hlog)]

/-- All requests of a target are answered from one description. -/
theorem Inv.exists_description {s : Session ι} (h : s.Inv) (i : ι) :
    ∃ d, ∀ entry ∈ s.log, entry.target = i → Answers d entry.request entry.response := by
  cases hd : (s.targets i).description with
  | none =>
    exact ⟨.error (.llvm ""), fun entry hentry htarget =>
      absurd htarget (h.undescribed i hd entry hentry)⟩
  | some d => exact ⟨d, (h.described i d hd).2⟩

end Session

/-- A module that was made for a target is not refused for its target, whatever has been added to
it. -/
theorem Answers.ne_targetMismatch {d : Except CodegenError TargetDesc} {name : String} {m : Module}
    (hmade : Answers d (.newModule name) (.module (.ok m))) {ops : List Module.Op}
    {response : Response} (hcompiled : Answers d (.compile (m.performAll ops)) response)
    (module machine : String) : response ≠ .code (.error (.targetMismatch module machine)) := by
  rintro rfl
  obtain ⟨hrefused, hbackend⟩ := hcompiled
  cases d with
  | error e => cases hmade
  | ok desc =>
    obtain rfl : m = Module.new name desc := Except.ok.inj hmade
    cases hcheck : ((Module.new name desc).performAll ops).checkFor desc with
    | ok u => exact hbackend hcheck _ rfl
    | error e =>
      cases hrefused e hcheck
      exact Module.target_ne_of_checkFor hcheck (Module.target_performAll _ ops)

namespace Session

variable {ι : Type} [DecidableEq ι]

/-- Whatever is asked of any number of targets, LLVM is set up once and before all else, each target
asks for a description of its machine at most once, and all its answers are from that description.
So a module made for a target is never refused for its target. -/
theorem run_descriptions (options : ι → Options) (events : List (Event ι)) :
    let s := (start options).run events
    s.log.map Entry.toEvent = events ∧
    (∃ rest, s.calls = (if events.isEmpty then [] else setups) ++ rest ∧
      ∀ call ∈ rest, call.setup? = none) ∧
    (∀ i, ((s.callsFor i).filterMap Call.inquiry?).Nodup) ∧
    (∀ i, ∃ d, ∀ entry ∈ s.log, entry.target = i → Answers d entry.request entry.response) ∧
    ∀ made ∈ s.log, ∀ compiled ∈ s.log, made.target = compiled.target → ∀ name m ops,
      made.request = .newModule name → made.response = .module (.ok m) →
      compiled.request = .compile (m.performAll ops) →
      ∀ module machine, compiled.response ≠ .code (.error (.targetMismatch module machine)) := by
  intro s
  have hinv : s.Inv := (inv_start options).run events
  have hlog : s.log.map Entry.toEvent = events := map_log_run (start options) events
  refine ⟨hlog, ?_, hinv.once, hinv.exists_description, ?_⟩
  · obtain ⟨rest, hcalls, hrest⟩ := hinv.exists_calls
    refine ⟨rest, ?_, hrest⟩
    rw [hcalls, ← hlog, List.isEmpty_map]
  · intro made hmade compiled hcompiled htarget name m ops hname hm hcompile
    obtain ⟨d, hd⟩ := hinv.exists_description compiled.target
    have hmade' := hd made hmade htarget
    have hcompiled' := hd compiled hcompiled rfl
    rw [hname, hm] at hmade'
    rw [hcompile] at hcompiled'
    exact hmade'.ne_targetMismatch hcompiled'

/-- A target that is asked twice while another one is asked for a module and to compile it. LLVM
does not reply the same the second time. -/
def inTurn : List (Event Bool) :=
  [⟨true, .describe, { targetError := some "no such target" }⟩,
    ⟨false, .newModule "m", { dataLayout := "e" }⟩,
    ⟨true, .describe, {}⟩,
    ⟨false, .compile ((Module.new "m" ⟨"x", "e"⟩).performAll [.declare "g" ⟨[], .void⟩]),
      { dataLayout := "E" }⟩]

def twoTargets : Session Bool := (start fun i => ⟨.none, some (if i then "y" else "x")⟩).run inTurn

theorem ne_targetMismatch_twoTargets :
    twoTargets.log.map Entry.response =
      [.description (.error (.llvm "no such target")), .module (.ok (Module.new "m" ⟨"x", "e"⟩)),
        .description (.error (.llvm "no such target")), .code (.ok ⟨0, 0, []⟩)] ∧
    ∃ compiled ∈ twoTargets.log,
      compiled.request =
        .compile ((Module.new "m" ⟨"x", "e"⟩).performAll [.declare "g" ⟨[], .void⟩]) ∧
      ∀ module machine, compiled.response ≠ .code (.error (.targetMismatch module machine)) := by
  have hmade : ∃ made ∈ twoTargets.log, made.target = false ∧ made.request = .newModule "m" ∧
      made.response = .module (.ok (Module.new "m" ⟨"x", "e"⟩)) :=
    ⟨_, List.mem_cons_of_mem _ List.mem_cons_self, rfl, rfl, rfl⟩
  obtain ⟨made, hmem, htarget, hrequest, hresponse⟩ := hmade
  refine ⟨rfl, _, List.mem_of_getElem? (i := 3) rfl, rfl, ?_⟩
  exact (run_descriptions _ inTurn).2.2.2.2 made hmem _ (List.mem_of_getElem? (i := 3) rfl)
    htarget "m" _ _ hrequest hresponse rfl

end Session

end TypedSSA.LLVM
