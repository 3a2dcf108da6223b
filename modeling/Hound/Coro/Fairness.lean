import Hound.Coro.TickResult
import Mathlib.Data.List.TakeWhile

/-!
# Who is resumed, and when

A coroutine may be put into the ready queue any number of times, by `schedule`, and `tick` passes
over one that is DONE when its turn comes. `fifo`: over a whole run the queue gives out the
coroutines in the order in which they were put in, once for every time, and those still in it are
the last ones. `tick` resumes those of them that are not DONE, and each is READY or SUSPENDED
then, which is what `Coroutine::resume` asks for; between two calls none is RUNNING.
-/

namespace Hound.Coro

open Hound.Lib

/-- The coroutines that the turn creates, when `n` were made before. -/
def Turn.created : Turn → Nat → List Nat
  | .create next, n => n :: next.created (n + 1)
  | _, _ => []

/-- The coroutines that are put into the queue by these acts and the turn behind them. -/
def Turn.queued (turn : Turn) : List Act → Nat → List Nat
  | [], n => turn.created n
  | .create :: acts, n => n :: turn.queued acts (n + 1)
  | .schedule co :: acts, n => co :: turn.queued acts n

namespace Scheduler

def entry (s : Scheduler) (co : Nat) : Nat × Option State := (co, s.states[co]?)

/-- The coroutines that the loop of `tick` takes from the queue, each with its state then. -/
def poppedIn : List Spell → Scheduler → List (Nat × Option State)
  | [], s => s.readyQueue.map s.entry
  | spell :: spells, s =>
    match s.readyQueue.dropWhile s.isDone with
    | [] => []
    | co :: queue => (s.readyQueue.takeWhile s.isDone).map s.entry ++ s.entry co ::
        poppedIn spells ({ s with readyQueue := queue }.resumeSpell co spell)

def resumedIn : List Spell → Scheduler → List (Nat × Option State)
  | [], _ => []
  | spell :: spells, s =>
    match s.readyQueue.dropWhile s.isDone with
    | [] => []
    | co :: queue =>
      s.entry co :: resumedIn spells ({ s with readyQueue := queue }.resumeSpell co spell)

/-- The coroutines that are put into the queue meanwhile; one that is in `co_sleep` puts none. -/
def scheduledIn : List Spell → Scheduler → List Nat
  | [], _ => []
  | spell :: spells, s =>
    match s.readyQueue.dropWhile s.isDone with
    | [] => []
    | co :: queue =>
      (if co ∈ s.timers then [] else spell.turn.queued spell.acts s.states.length) ++
        scheduledIn spells ({ s with readyQueue := queue }.resumeSpell co spell)

def popped (s : Scheduler) : SpellCall → List (Nat × Option State)
  | .tick spells => s.poppedIn spells
  | .createCoroutine | .schedule _ | .onFdReady _ | .timer _ => []

def resumed (s : Scheduler) : SpellCall → List (Nat × Option State)
  | .tick spells => s.resumedIn spells
  | .createCoroutine | .schedule _ | .onFdReady _ | .timer _ => []

def scheduled (s : Scheduler) : SpellCall → List Nat
  | .createCoroutine => [s.states.length]
  | .schedule co | .timer co => [co]
  | .tick spells => s.scheduledIn spells
  | .onFdReady fd => ((s.waitingForRead.lookup fd).or (s.waitingForWrite.lookup fd)).toList

/-- What the calls of a run give, one after the other. -/
def along {α : Type} (f : Scheduler → SpellCall → List α) : Scheduler → List SpellCall → List α
  | _, [] => []
  | s, call :: calls => f s call ++
    match spellMachine.step s call with
    | none => []
    | some s => along f s calls

variable {s s' : Scheduler} {co : Nat} {turn : Turn}

/-! ## One turn -/

def OnlyRuns (s : Scheduler) (co : Nat) : Prop := ∀ j ≠ co, s.states[j]? ≠ some .running

def NoneRuns (s : Scheduler) : Prop := ∀ j : Nat, s.states[j]? ≠ some .running

theorem noneRuns_setState (h : s.OnlyRuns co) {st : State} (hst : st ≠ .running) :
    (s.setState co st).NoneRuns := by
  intro j
  simp only [setState, List.getElem?_modify]
  by_cases hj : co = j
  · subst hj
    cases s.states[co]? <;> simp [hst]
  · have hother := h j (Ne.symm hj)
    simpa [hj] using hother

theorem createCoroutine_running {j : Nat} (h : s.states[j]? ≠ some .running) :
    s.createCoroutine.states[j]? ≠ some .running := by
  simp only [createCoroutine, schedule, List.getElem?_append]
  split
  · exact h
  · cases j - s.states.length <;> simp

/-- A turn puts those whom it creates into the queue, and leaves `co` SUSPENDED or DONE. -/
theorem perform_spec (turn : Turn) : ∀ {s : Scheduler}, s.OnlyRuns co →
    (s.perform co turn).readyQueue = s.readyQueue ++ turn.created s.states.length ∧
      (s.perform co turn).NoneRuns := by
  induction turn with
  | create next ih =>
    intro s h
    obtain ⟨hqueue, hnone⟩ := ih (s := s.createCoroutine) fun j hj =>
      createCoroutine_running (h j hj)
    refine ⟨hqueue.trans ?_, hnone⟩
    simp [createCoroutine, schedule, Turn.created]
  | yield | coRead | coAccept | coWrite | coConnect | coSleep =>
    exact fun h => ⟨(List.append_nil _).symm, noneRuns_setState h (by decide)⟩
  | finish => exact fun h => ⟨(List.append_nil _).symm, noneRuns_setState h (by decide)⟩

theorem acts_perform_spec (turn : Turn) : ∀ (acts : List Act) {s : Scheduler}, s.OnlyRuns co →
    ((acts.foldl act s).perform co turn).readyQueue =
      s.readyQueue ++ turn.queued acts s.states.length ∧
      ((acts.foldl act s).perform co turn).NoneRuns
  | [], s, h => perform_spec turn h
  | .create :: acts, s, h => by
    obtain ⟨hqueue, hnone⟩ := acts_perform_spec turn acts (s := s.createCoroutine) fun j hj =>
      createCoroutine_running (h j hj)
    refine ⟨hqueue.trans ?_, hnone⟩
    simp [createCoroutine, schedule, Turn.queued]
  | .schedule co' :: acts, s, h => by
    have hsame : (s.schedule co').OnlyRuns co := h
    obtain ⟨hqueue, hnone⟩ := acts_perform_spec turn acts hsame
    refine ⟨hqueue.trans ?_, hnone⟩
    simp [schedule, Turn.queued]

theorem resumeSpell_queue (h : s.NoneRuns) (co : Nat) (spell : Spell) :
    (s.resumeSpell co spell).readyQueue = s.readyQueue ++
        (if co ∈ s.timers then [] else spell.turn.queued spell.acts s.states.length) ∧
      (s.resumeSpell co spell).NoneRuns := by
  have hruns : (s.setState co .running).OnlyRuns co := by
    intro j hj
    have hother := h j
    simp only [setState, List.getElem?_modify]
    simpa [Ne.symm hj] using hother
  have htimers : (s.setState co .running).timers = s.timers := rfl
  have hlength : (s.setState co .running).states.length = s.states.length := by
    simp [setState]
  unfold resumeSpell
  simp only [htimers]
  split
  · exact ⟨(List.append_nil _).symm, noneRuns_setState hruns (by decide)⟩
  · obtain ⟨hqueue, hnone⟩ := acts_perform_spec spell.turn spell.acts hruns
    rw [hlength] at hqueue
    exact ⟨hqueue, hnone⟩

/-! ## One call -/

/-- A coroutine that may be resumed, if there is one. -/
def Legal (r : Nat × Option State) : Prop := ∀ st, r.2 = some st → st = .ready ∨ st = .suspended

theorem legal_of_not_done (hnone : s.NoneRuns) (hdone : s.isDone co = false) :
    Legal (s.entry co) := by
  intro st hst
  have hst : s.states[co]? = some st := hst
  have hrun := hnone co
  have hdone := of_decide_eq_false hdone
  rw [hst, Option.some.injEq] at hdone
  rw [hst, ne_eq, Option.some.injEq] at hrun
  cases st with
  | ready => exact .inl rfl
  | suspended => exact .inr rfl
  | running => exact absurd rfl hrun
  | done => exact absurd rfl hdone

/-- It was taken from the queue to be resumed. -/
def Lives (r : Nat × Option State) : Bool := r.2 ≠ some .done

theorem filter_lives_done {cos : List Nat} (h : ∀ co ∈ cos, s.isDone co = true) :
    (cos.map s.entry).filter Lives = [] := by
  refine List.filter_eq_nil_iff.mpr fun r hr => ?_
  obtain ⟨co, hco, rfl⟩ := List.mem_map.mp hr
  have hdone : s.states[co]? = some .done := of_decide_eq_true (h co hco)
  simp [Lives, entry, hdone]

theorem map_fst_entry (s : Scheduler) (cos : List Nat) : (cos.map s.entry).map Prod.fst = cos := by
  rw [List.map_map]
  exact List.map_id cos

/-- What a call, or the loop of `tick`, does to the queue: it takes `out` from its front and puts
`new` at its back, and it resumes those of `out` that are not DONE. -/
structure Passes (s s' : Scheduler) (out : List (Nat × Option State)) (new : List Nat)
    (ran : List (Nat × Option State)) : Prop where
  order : s.readyQueue ++ new = out.map Prod.fst ++ s'.readyQueue
  lives : ran = out.filter Lives
  legal : ∀ r ∈ ran, Legal r
  quiet : s'.NoneRuns

theorem Passes.trans {s s₁ s' : Scheduler} {out out' ran ran' : List (Nat × Option State)}
    {new new' : List Nat} (h : Passes s s₁ out new ran) (h' : Passes s₁ s' out' new' ran') :
    Passes s s' (out ++ out') (new ++ new') (ran ++ ran') where
  order := by
    rw [← List.append_assoc, h.order, List.append_assoc, h'.order, List.map_append,
      List.append_assoc]
  lives := by rw [h.lives, h'.lives, List.filter_append]
  legal r hr := (List.mem_append.mp hr).elim (h.legal r) (h'.legal r)
  quiet := h'.quiet

theorem Passes.enqueued {new : List Nat} (hqueue : s'.readyQueue = s.readyQueue ++ new)
    (hnone : s'.NoneRuns) : Passes s s' [] new [] :=
  ⟨hqueue.symm, rfl, List.forall_mem_nil _, hnone⟩

/-- The loop takes those that are DONE and the next one, which it resumes. -/
theorem passes_turn (hnone : s.NoneRuns) {queue : List Nat}
    (hq : s.readyQueue.dropWhile s.isDone = co :: queue) (spell : Spell) :
    Passes s ({ s with readyQueue := queue }.resumeSpell co spell)
      ((s.readyQueue.takeWhile s.isDone).map s.entry ++ [s.entry co])
      (if co ∈ s.timers then [] else spell.turn.queued spell.acts s.states.length)
      [s.entry co] := by
  obtain ⟨hqueue, hnone'⟩ :=
    resumeSpell_queue (s := { s with readyQueue := queue }) hnone co spell
  have hdone : s.isDone co = false := by
    have hne : s.readyQueue.dropWhile s.isDone ≠ [] := by
      rw [hq]
      exact List.cons_ne_nil co queue
    have hhead := List.head_dropWhile_not s.isDone hne
    simp only [hq] at hhead
    exact hhead
  have hlives : Lives (s.entry co) = true := decide_eq_true (of_decide_eq_false hdone)
  refine ⟨?_, ?_, fun r hr => ?_, hnone'⟩
  · rw [hqueue, List.map_append, map_fst_entry, ← List.append_assoc]
    refine congrArg (· ++ _) ?_
    have hsplit := List.takeWhile_append_dropWhile (p := s.isDone) (l := s.readyQueue)
    rw [hq] at hsplit
    rw [List.append_assoc]
    exact hsplit.symm
  · rw [List.filter_append, filter_lives_done fun co hco => List.mem_takeWhile_imp hco,
      List.filter_cons_of_pos hlives]
    rfl
  · rw [List.mem_singleton.mp hr]
    exact legal_of_not_done hnone hdone

/-- **The loop of `tick`** takes all of the queue. -/
theorem tickLoop_passes : ∀ {spells : List Spell} {s s' : Scheduler}, s.NoneRuns →
    s.tickLoopWith resumeSpell spells = some s' →
    Passes s s' (s.poppedIn spells) (s.scheduledIn spells) (s.resumedIn spells)
  | [], s, s', hnone, h => by
    rw [tickLoopWith] at h
    split at h
    · next hq =>
      cases h
      refine ⟨?_, ?_, List.forall_mem_nil _, hnone⟩
      · rw [poppedIn, map_fst_entry]
        rfl
      · exact (filter_lives_done (List.dropWhile_eq_nil_iff.mp hq)).symm
    · cases h
  | spell :: spells, s, s', hnone, h => by
    rw [tickLoopWith] at h
    rw [poppedIn, scheduledIn, resumedIn]
    cases hq : s.readyQueue.dropWhile s.isDone with
    | nil => rw [hq] at h; cases h
    | cons co queue =>
      rw [hq] at h
      have hturn := passes_turn hnone hq spell
      have hall := hturn.trans (tickLoop_passes hturn.quiet h)
      rwa [List.append_assoc] at hall

theorem onFdReady_queue (s : Scheduler) (fd : Int) : (s.onFdReady fd).readyQueue = s.readyQueue ++
    ((s.waitingForRead.lookup fd).or (s.waitingForWrite.lookup fd)).toList := by
  unfold onFdReady
  cases s.waitingForRead.lookup fd with
  | some co => rfl
  | none =>
    cases s.waitingForWrite.lookup fd with
    | some co => rfl
    | none => exact (List.append_nil _).symm

theorem onFdReady_states (s : Scheduler) (fd : Int) : (s.onFdReady fd).states = s.states := by
  unfold onFdReady
  split
  · rfl
  · split <;> rfl

/-- **Each call**: what it resumes was at the front of the queue, and what it schedules goes to
its back. -/
theorem step_passes {call : SpellCall} (hnone : s.NoneRuns)
    (h : spellMachine.step s call = some s') :
    Passes s s' (s.popped call) (s.scheduled call) (s.resumed call) := by
  cases call with
  | createCoroutine =>
    cases h
    exact .enqueued rfl fun j => createCoroutine_running (hnone j)
  | schedule co | timer co =>
    obtain ⟨-, h⟩ := Option.ite_none_right_eq_some.mp h
    cases h
    exact .enqueued rfl hnone
  | onFdReady fd =>
    cases h
    refine .enqueued (onFdReady_queue s fd) fun j => ?_
    rw [onFdReady_states]
    exact hnone j
  | tick spells =>
    obtain ⟨r, htick, rfl⟩ := Option.map_eq_some_iff.mp h
    unfold tickWith at htick
    split at htick
    · next hempty =>
      obtain ⟨hnil, hr⟩ := Option.ite_none_right_eq_some.mp htick
      obtain rfl := List.isEmpty_iff.mp hnil
      rw [← Option.some.inj hr, popped, poppedIn, hempty]
      exact .enqueued (List.append_nil _).symm hnone
    · obtain ⟨s₁, hloop, rfl⟩ := Option.map_eq_some_iff.mp htick
      exact tickLoop_passes hnone hloop

/-! ## Runs -/

theorem along_passes : ∀ {calls : List SpellCall} {s s' : Scheduler}, s.NoneRuns →
    spellMachine.runFrom s calls = some s' →
    Passes s s' (s.along popped calls) (s.along scheduled calls) (s.along resumed calls)
  | [], s, s', hnone, h => by
    cases h
    exact .enqueued (List.append_nil _).symm hnone
  | call :: calls, s, s', hnone, h => by
    obtain ⟨s₁, h1, h2⟩ := Machine.runFrom_cons h
    have hstep := step_passes hnone h1
    rw [along, along, along, h1]
    exact hstep.trans (along_passes hstep.quiet h2)

end Scheduler

open Scheduler

/-- **First come, first served.** Over any run the queue gives out the coroutines in the order in
which they were put in, once for every time; those still in it are the last. Those that are not
DONE by then are resumed, each READY or SUSPENDED, and none is RUNNING behind a call. -/
theorem fifo {calls : List SpellCall} {s : Scheduler} (h : spellMachine.run calls = some s) :
    Scheduler.along scheduled {} calls =
      (Scheduler.along popped {} calls).map Prod.fst ++ s.readyQueue ∧
      Scheduler.along resumed {} calls = (Scheduler.along popped {} calls).filter Lives ∧
      (∀ r ∈ Scheduler.along resumed {} calls, Legal r) ∧ s.NoneRuns := by
  have hall := along_passes (s := {}) (fun _ h => by cases h) h
  exact ⟨hall.order, hall.lives, hall.legal, hall.quiet⟩

/-- Of two coroutines the first creates a third, puts the second into the queue once more and
reads; the second has ended when its turn comes again. -/
def threeOfThem : List SpellCall :=
  [.createCoroutine, .createCoroutine,
    .tick [⟨[.create, .schedule 1], .coRead 5⟩, ⟨[], .finish⟩, ⟨[], .coWrite 6⟩], .onFdReady 5,
    .tick [⟨[], .finish⟩], .onFdReady 6]

theorem fifo_threeOfThem :
    (Scheduler.along popped {} threeOfThem).map Prod.fst ++ [2] = [0, 1, 2, 1, 0, 2] ∧
      (Scheduler.along resumed {} threeOfThem).map Prod.fst = [0, 1, 2, 0] := by
  have h : spellMachine.run threeOfThem =
      some { states := [.done, .done, .suspended], readyQueue := [2] } := rfl
  obtain ⟨horder, hran, -⟩ := fifo h
  refine ⟨horder.symm, ?_⟩
  rw [hran]
  decide

end Hound.Coro
