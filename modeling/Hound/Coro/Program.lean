import Hound.Coro.Conservation
import Hound.Coro.Hooks
import Hound.Coro.TickResult

/-!
# Coroutines and threads

A `World` is a scheduler together with where its coroutines are. `threads` is what the authors of
their functions have in mind: each has a thread of its own, which waits inside its system
calls and in `sleep`. `refines_threads`: whatever order the scheduler resumes them in, and
however often their system calls would have blocked, the coroutines go through a run of
`threads`, in which every call returns what the last of its attempts gave and no sleep ends before
its timer.
-/

namespace Hound.Coro

open Lib

variable {σ : Type}

structure World (σ : Type) where
  frames : List (Frame σ) := []
  sched : Scheduler := {}

inductive WorldEvent (σ : Type) where
  /-- `create_coroutine` from outside of all coroutines. -/
  | create (x : σ)
  /-- `tick`, with what the outside gives to each coroutine that it resumes. -/
  | tick (turns : List (List Input))
  | onFdReady (fd : Int)
  /-- The timer of a `co_sleep` of this coroutine fires. -/
  | timer (co : Nat)

variable (code : σ → Action σ)

namespace World

/-- The loop of `tick`. A coroutine that is resumed in `co_sleep` yields again as long as its
timer is pending. -/
def tickLoop : List (List Input) → World σ → Option (World σ)
  | [], w =>
    match w.sched.readyQueue.dropWhile w.sched.isDone with
    | [] => some { w with sched := { w.sched with readyQueue := [] } }
    | _ :: _ => none
  | is :: turns, w =>
    match w.sched.readyQueue.dropWhile w.sched.isDone with
    | [] => none
    | co :: queue =>
      let s := { w.sched with readyQueue := queue }
      if co ∈ s.timers then
        if is.isEmpty then tickLoop turns { w with sched := s.resume co .yield } else none
      else
        match w.frames[co]? with
        | none => none
        | some f =>
          match exec code f is with
          | none => none
          | some (f, news, turn) =>
            tickLoop turns
              { frames := w.frames.set co f ++ news.map .alive, sched := s.resume co turn }

def create (w : World σ) (x : σ) : World σ :=
  { frames := w.frames ++ [.alive x], sched := w.sched.createCoroutine }

end World

def worldMachine : Machine (World σ) (WorldEvent σ) where
  init := {}
  step w
    | .create x => some (w.create x)
    | .tick turns => w.tickLoop code turns
    | .onFdReady fd => some { w with sched := w.sched.onFdReady fd }
    | .timer co => if co ∈ w.sched.timers then some { w with sched := w.sched.wakeUp co } else none

/-! ## Threads -/

inductive Thread (σ : Type) where
  | alive (x : σ)
  | asleep (next : σ)
  | done

inductive ThreadEvent (σ : Type) where
  | create (x : σ)
  /-- The system call that thread `i` is in returns. -/
  | call (i : Nat) (o : Outcome)
  /-- What thread `i` does next, other than a call. -/
  | act (i : Nat)
  /-- The sleep of thread `i` is over. -/
  | timer (i : Nat)

/-- Threads that make the blocking calls themselves. -/
def threads : Machine (List (Thread σ)) (ThreadEvent σ) where
  init := []
  step ts
    | .create x => some (ts ++ [.alive x])
    | .call i o =>
      match ts[i]? with
      | some (.alive x) =>
        match code x with
        | .call _ next => some (ts.set i (.alive (next (Hook.plain o))))
        | _ => none
      | _ => none
    | .act i =>
      match ts[i]? with
      | some (.alive x) =>
        match code x with
        | .call .. => none
        | .sleep next => some (ts.set i (.asleep next))
        | .yield next => some (ts.set i (.alive next))
        | .create new next => some (ts.set i (.alive next) ++ [.alive new])
        | .ret => some (ts.set i .done)
      | _ => none
    | .timer i =>
      match ts[i]? with
      | some (.asleep next) => some (ts.set i (.alive next))
      | _ => none

/-! ## Coroutines as threads -/

/-- The thread that a coroutine stands for. A call that waits is a call of the thread; a sleep
is over when its timer has fired, also if the coroutine has not been resumed yet. -/
def Frame.thread (pending : Bool) : Frame σ → Thread σ
  | .alive x | .blocked x => .alive x
  | .asleep next => if pending then .asleep next else .alive next
  | .done => .done

def World.view (w : World σ) : List (Thread σ) :=
  w.frames.mapIdx fun co f => f.thread (co ∈ w.sched.timers)

/-- What a step of the coroutine `co` is for its thread: a call that would block is nothing. -/
def Frame.heard (co : Nat) : Frame σ → Input → List (ThreadEvent σ)
  | .alive x, .sys o | .blocked x, .sys o =>
    match code x with
    | .call hook _ => if (hook.attempt o).isSome then [.call co (hook.taken o)] else []
    | _ => []
  | .blocked _, .soError error => [.call co (.connected error)]
  | .alive _, .go => [.act co]
  | _, _ => []

def execHeard (co : Nat) : Frame σ → List Input → List (ThreadEvent σ)
  | _, [] => []
  | f, i :: is => f.heard code co i ++
    match f.step code i with
    | some (f, .goes) | some (f, .creates _) => execHeard co f is
    | some (_, .switches _) | none => []

namespace World

def tickHeard : List (List Input) → World σ → List (ThreadEvent σ)
  | [], _ => []
  | is :: turns, w =>
    match w.sched.readyQueue.dropWhile w.sched.isDone with
    | [] => []
    | co :: queue =>
      let s := { w.sched with readyQueue := queue }
      if co ∈ s.timers then tickHeard turns { w with sched := s.resume co .yield }
      else
        match w.frames[co]? with
        | none => []
        | some f =>
          execHeard code co f is ++
            match exec code f is with
            | none => []
            | some (f, news, turn) =>
              tickHeard turns
                { frames := w.frames.set co f ++ news.map .alive, sched := s.resume co turn }

def heard (w : World σ) : WorldEvent σ → List (ThreadEvent σ)
  | .create x => [.create x]
  | .tick turns => w.tickHeard code turns
  | .onFdReady _ => []
  | .timer co => [.timer co]

/-- What a run is for the threads. -/
def trace : World σ → List (WorldEvent σ) → List (ThreadEvent σ)
  | _, [] => []
  | w, e :: events => w.heard code e ++
    match (worldMachine code).step w e with
    | none => []
    | some w => trace w events

end World

/-! ## One step -/

variable {code} {f f' : Frame σ} {i : Input} {is : List Input} {news : List σ} {turn : Turn}
  {co : Nat} {ts : List (Thread σ)}

/-- The threads behind a step of the coroutine `co` that leaves it at `f`. -/
def Effect.applied (ts : List (Thread σ)) (co : Nat) (f : Frame σ) : Effect σ → List (Thread σ)
  | .goes => ts.set co (f.thread false)
  | .creates new => ts.set co (f.thread false) ++ [.alive new]
  | .switches _ => ts.set co (f.thread true)

/-- A call that returns is the call of the thread; a call that waits is nothing. -/
theorem tried_run {x : σ} {hook : Hook} {next : Reply → σ} {o : Outcome} {e : Effect σ}
    (hcode : code x = .call hook next) (h : Frame.tried x hook next o = (f', e))
    (ht : ts[co]? = some (.alive x)) :
    (threads code).runFrom ts (if (hook.attempt o).isSome then [.call co (hook.taken o)] else []) =
      some (e.applied ts co f') := by
  unfold Frame.tried at h
  cases hr : hook.attempt o with
  | some r =>
    rw [hr] at h
    cases h
    refine Machine.runFrom_one ?_
    simp only [threads, ht, hcode, ← Hook.attempt_eq hr]
    rfl
  | none =>
    rw [hr] at h
    cases h
    -- the thread stays in its call
    obtain ⟨hlt, hget⟩ := List.getElem?_eq_some_iff.mp ht
    have hsame : ts.set co (.alive x) = ts := by rw [← hget, List.set_getElem_self]
    exact congrArg some hsame.symm

theorem step_run {e : Effect σ} (h : f.step code i = some (f', e))
    (ht : ts[co]? = some (f.thread false)) :
    (threads code).runFrom ts (f.heard code co i) = some (e.applied ts co f') := by
  cases f with
  | alive x =>
    cases i with
    | soError error => cases h
    | sys o =>
      simp only [Frame.step] at h
      simp only [Frame.heard]
      cases hcode : code x with
      | call hook next =>
        simp only [hcode] at h
        exact tried_run hcode (Option.some.inj h) ht
      | sleep | yield | create | ret => simp only [hcode] at h; cases h
    | go =>
      simp only [Frame.step] at h
      refine Machine.runFrom_one ?_
      simp only [threads, ht, Frame.thread]
      cases hcode : code x with
      | call hook next => simp only [hcode] at h; cases h
      | sleep | yield | create | ret =>
        simp only [hcode, Option.some.injEq, Prod.mk.injEq] at h
        obtain ⟨rfl, rfl⟩ := h
        rfl
  | blocked x =>
    cases i with
    | go => cases h
    | sys o =>
      simp only [Frame.step] at h
      simp only [Frame.heard]
      cases hcode : code x with
      | call hook next =>
        simp only [hcode] at h
        split at h
        · cases h
        · next hcall =>
          cases hcall
          exact tried_run hcode (Option.some.inj h) ht
        · cases h
      | sleep | yield | create | ret => simp only [hcode] at h; cases h
    | soError error =>
      simp only [Frame.step] at h
      split at h
      · next fd next hcode =>
        cases h
        refine Machine.runFrom_one ?_
        simp only [threads, ht, Frame.thread, hcode]
        rfl
      · cases h
  | asleep next =>
    cases i with
    | sys | soError => cases h
    | go =>
      cases h
      obtain ⟨hlt, hget⟩ := List.getElem?_eq_some_iff.mp ht
      have hsame : ts.set co (.alive next) = ts := by
        rw [show (Thread.alive next) = ts[co] from hget.symm, List.set_getElem_self]
      exact congrArg some hsame.symm
  | done => cases i <;> cases h

theorem exec_run : ∀ {is : List Input} {f f' : Frame σ} {news : List σ} {turn : Turn}
    {ts : List (Thread σ)}, exec code f is = some (f', news, turn) →
    ts[co]? = some (f.thread false) →
    (threads code).runFrom ts (execHeard code co f is) =
      some (ts.set co (f'.thread true) ++ news.map .alive)
  | [], _, _, _, _, _, h, _ => by cases h
  | i :: is, f, f', news, turn, ts, h, ht => by
    obtain ⟨hlt, -⟩ := List.getElem?_eq_some_iff.mp ht
    simp only [exec] at h
    simp only [execHeard]
    cases hstep : f.step code i with
    | none => simp only [hstep] at h; cases h
    | some r =>
      obtain ⟨f₁, e⟩ := r
      have hrun := step_run hstep ht
      simp only [hstep] at h ⊢
      cases e with
      | goes =>
        have ht₁ : (ts.set co (f₁.thread false))[co]? = some (f₁.thread false) :=
          List.getElem?_set_self hlt
        have ih := exec_run h ht₁
        rw [List.set_set] at ih
        exact Machine.runFrom_append hrun ih
      | creates new =>
        obtain ⟨⟨f₂, news', turn'⟩, hexec, he⟩ := Option.map_eq_some_iff.mp h
        cases he
        have hlt' : co < (ts.set co (f₁.thread false)).length := by
          rw [List.length_set]
          exact hlt
        have ht₁ : (ts.set co (f₁.thread false) ++ [.alive new])[co]? =
            some (f₁.thread false) := by
          rw [List.getElem?_append_left hlt', List.getElem?_set_self hlt]
        have ih := exec_run hexec ht₁
        rw [List.set_append_left _ _ hlt', List.set_set, List.append_assoc] at ih
        exact Machine.runFrom_append hrun ih
      | switches turn' =>
        simp only at h
        split at h
        · cases h
          rw [List.append_nil, List.map_nil, List.append_nil]
          exact hrun
        · cases h

/-! ## One tick -/

theorem perform_timers (s : Scheduler) (co : Nat) (turn : Turn) :
    (s.perform co turn).timers = if turn.sleeps then s.timers ++ [co] else s.timers := by
  induction turn generalizing s with
  | create next ih => exact ih s.createCoroutine
  | coSleep => rfl
  | yield | coRead | coAccept | coWrite | coConnect | finish => rfl

theorem resume_timers {s : Scheduler} (h : co ∉ s.timers) (turn : Turn) :
    (s.resume co turn).timers = if turn.sleeps then s.timers ++ [co] else s.timers := by
  have htimers : co ∉ (s.setState co .running).timers := h
  rw [Scheduler.resume, if_neg htimers]
  exact perform_timers ..

/-- A step that switches from `co_sleep` leaves the coroutine there, and no other does. -/
theorem step_sleeps (h : f.step code i = some (f', .switches turn)) :
    turn.sleeps = true ∧ (∃ next, f' = .asleep next) ∨
      turn.sleeps = false ∧ ∀ next, f' ≠ .asleep next := by
  have htried {x : σ} {hook : Hook} {next : Reply → σ} {o : Outcome}
      (h : Frame.tried x hook next o = (f', .switches turn)) :
      turn.sleeps = true ∧ (∃ next, f' = .asleep next) ∨
        turn.sleeps = false ∧ ∀ next, f' ≠ .asleep next := by
    unfold Frame.tried at h
    cases hr : hook.attempt o with
    | some r => rw [hr] at h; cases h
    | none =>
      rw [hr] at h
      cases h
      refine .inr ⟨?_, fun _ => nofun⟩
      cases hook <;> rfl
  cases f with
  | alive x =>
    cases i with
    | soError error => cases h
    | sys o =>
      simp only [Frame.step] at h
      split at h
      · exact htried (Option.some.inj h)
      · cases h
    | go =>
      simp only [Frame.step] at h
      split at h <;> cases h
      · exact .inl ⟨rfl, _, rfl⟩
      · exact .inr ⟨rfl, fun _ => nofun⟩
      · exact .inr ⟨rfl, fun _ => nofun⟩
  | blocked x =>
    cases i with
    | go => cases h
    | soError error =>
      simp only [Frame.step] at h
      split at h <;> cases h
    | sys o =>
      simp only [Frame.step] at h
      split at h
      · cases h
      · exact htried (Option.some.inj h)
      · cases h
  | asleep next => cases i <;> cases h
  | done => cases i <;> cases h

theorem exec_sleeps : ∀ {is : List Input} {f f' : Frame σ} {news : List σ} {turn : Turn},
    exec code f is = some (f', news, turn) →
    turn.sleeps = true ∧ (∃ next, f' = .asleep next) ∨
      turn.sleeps = false ∧ ∀ next, f' ≠ .asleep next
  | [], _, _, _, _, h => by cases h
  | i :: is, f, f', news, turn, h => by
    simp only [exec] at h
    split at h
    · cases h
    · exact exec_sleeps h
    · obtain ⟨⟨f₂, news', turn'⟩, hexec, he⟩ := Option.map_eq_some_iff.mp h
      cases he
      have ih := exec_sleeps hexec
      exact ih
    · next hstep =>
      split at h
      · cases h
        exact step_sleeps hstep
      · cases h

namespace World

variable {w w' : World σ} {s : Scheduler}

/-- The coroutines with a pending timer are in `co_sleep`. -/
def Asleep (w : World σ) : Prop :=
  ∀ co ∈ w.sched.timers, ∃ next, w.frames[co]? = some (.asleep next)

theorem getElem?_view (w : World σ) (i : Nat) :
    w.view[i]? = (w.frames[i]?).map fun f => f.thread (i ∈ w.sched.timers) :=
  List.getElem?_mapIdx

theorem thread_eq (h : ∀ next, f ≠ .asleep next) (b b' : Bool) : f.thread b = f.thread b' := by
  cases f with
  | asleep next => exact absurd rfl (h next)
  | alive x | blocked x | done => rfl

theorem view_turn (hco : co ∉ s.timers) (hlt : co < w.frames.length)
    (hsame : w.sched.timers = s.timers)
    (hsleeps : turn.sleeps = true ∧ (∃ next, f' = .asleep next) ∨
      turn.sleeps = false ∧ ∀ next, f' ≠ .asleep next) :
    (⟨w.frames.set co f' ++ news.map .alive, s.resume co turn⟩ : World σ).view =
      w.view.set co (f'.thread true) ++ news.map .alive := by
  have htimers := resume_timers hco turn
  have hother {j : Nat} (hj : j ≠ co) : j ∈ (s.resume co turn).timers ↔ j ∈ s.timers := by
    rw [htimers]
    split
    · simp [hj]
    · rfl
  have hself : f'.thread (co ∈ (s.resume co turn).timers) = f'.thread true := by
    rcases hsleeps with ⟨hturn, -⟩ | ⟨-, hawake⟩
    · rw [htimers, if_pos hturn]
      simp
    · exact thread_eq hawake ..
  have hlength : (w.view.set co (f'.thread true)).length = w.frames.length := by
    rw [List.length_set, view, List.length_mapIdx]
  refine List.ext_getElem? fun j => ?_
  rw [getElem?_view]
  by_cases hj : j < w.frames.length
  · rw [List.getElem?_append_left (by rw [List.length_set]; exact hj),
      List.getElem?_append_left (by rw [hlength]; exact hj)]
    by_cases hjc : j = co
    · subst hjc
      rw [List.getElem?_set_self hlt, List.getElem?_set_self (by
        rw [view, List.length_mapIdx]; exact hlt)]
      exact congrArg some hself
    · rw [List.getElem?_set_ne (Ne.symm hjc), List.getElem?_set_ne (Ne.symm hjc), getElem?_view,
        hsame]
      simp only [hother hjc]
  · rw [List.getElem?_append_right (by rw [List.length_set]; omega),
      List.getElem?_append_right (by rw [hlength]; omega), List.length_set, hlength,
      List.getElem?_map, List.getElem?_map, Option.map_map]
    rfl

theorem asleep_turn (hasleep : ∀ co ∈ s.timers, ∃ next, w.frames[co]? = some (.asleep next))
    (hco : co ∉ s.timers) (hlt : co < w.frames.length)
    (hsleeps : turn.sleeps = true ∧ (∃ next, f' = .asleep next) ∨
      turn.sleeps = false ∧ ∀ next, f' ≠ .asleep next) :
    (⟨w.frames.set co f' ++ news.map .alive, s.resume co turn⟩ : World σ).Asleep := by
  intro j hj
  have hj : j ∈ (s.resume co turn).timers := hj
  rw [resume_timers hco] at hj
  have hset {j : Nat} (hlt : j < w.frames.length) :
      (w.frames.set co f' ++ news.map Frame.alive)[j]? = (w.frames.set co f')[j]? :=
    List.getElem?_append_left (by rw [List.length_set]; exact hlt)
  by_cases hjc : j = co
  · subst hjc
    rcases hsleeps with ⟨-, next, rfl⟩ | ⟨hturn, -⟩
    · exact ⟨next, by rw [hset hlt, List.getElem?_set_self hlt]⟩
    · rw [hturn, if_neg Bool.false_ne_true] at hj
      exact absurd hj hco
  · have hj : j ∈ s.timers := by
      split at hj
      · simpa [hjc] using hj
      · exact hj
    obtain ⟨next, hnext⟩ := hasleep j hj
    obtain ⟨hlt', -⟩ := List.getElem?_eq_some_iff.mp hnext
    exact ⟨next, by rw [hset hlt', List.getElem?_set_ne (Ne.symm hjc), hnext]⟩

/-- **The loop of `tick`**, for the threads. -/
theorem tickLoop_run : ∀ {turns : List (List Input)} {w w' : World σ}, w.Asleep →
    w.tickLoop code turns = some w' →
    (threads code).runFrom w.view (w.tickHeard code turns) = some w'.view ∧ w'.Asleep
  | [], w, w', hw, h => by
    simp only [tickLoop] at h
    cases hqueue : w.sched.readyQueue.dropWhile w.sched.isDone with
    | cons co queue => simp only [hqueue] at h; cases h
    | nil =>
      simp only [hqueue] at h
      cases h
      exact ⟨rfl, hw⟩
  | is :: turns, w, w', hw, h => by
    simp only [tickLoop] at h
    simp only [tickHeard]
    cases hqueue : w.sched.readyQueue.dropWhile w.sched.isDone with
    | nil => simp only [hqueue] at h; cases h
    | cons co queue =>
      simp only [hqueue] at h ⊢
      by_cases hpending : co ∈ w.sched.timers
      · rw [if_pos hpending] at h ⊢
        obtain ⟨-, h⟩ := Option.ite_none_right_eq_some.mp h
        -- it yields again in `co_sleep`
        have hsame : ({ w.sched with readyQueue := queue }.resume co .yield).timers =
            w.sched.timers := by
          unfold Scheduler.resume
          simp only
          split <;> rfl
        have hasleep : (⟨w.frames, { w.sched with readyQueue := queue }.resume co .yield⟩ :
            World σ).Asleep := fun j hj => hw j (hsame ▸ hj)
        have hview : (⟨w.frames, { w.sched with readyQueue := queue }.resume co .yield⟩ :
            World σ).view = w.view := by
          unfold view
          rw [hsame]
        have ih := tickLoop_run hasleep h
        rw [hview] at ih
        exact ih
      · rw [if_neg hpending] at h ⊢
        cases hf : w.frames[co]? with
        | none => simp only [hf] at h; cases h
        | some f =>
          simp only [hf] at h ⊢
          cases hexec : exec code f is with
          | none => simp only [hexec] at h; cases h
          | some r =>
            obtain ⟨f', news, turn⟩ := r
            simp only [hexec] at h ⊢
            obtain ⟨hlt, -⟩ := List.getElem?_eq_some_iff.mp hf
            have hsleeps := exec_sleeps hexec
            have ht : w.view[co]? = some (f.thread false) := by
              rw [getElem?_view, hf, Option.map_some, decide_eq_false hpending]
            have hrun := exec_run hexec ht
            have hpending' : co ∉ ({ w.sched with readyQueue := queue } : Scheduler).timers :=
              hpending
            rw [← view_turn hpending' hlt rfl hsleeps] at hrun
            obtain ⟨hrest, hasleep⟩ :=
              tickLoop_run (asleep_turn (s := { w.sched with readyQueue := queue }) hw hpending' hlt
                hsleeps) h
            exact ⟨Machine.runFrom_append hrun hrest, hasleep⟩

/-! ## Runs -/

theorem tickLoop_sched : ∀ {turns : List (List Input)} {w w' : World σ},
    w.tickLoop code turns = some w' →
    ∃ turns', w.sched.tickLoop turns' = some w'.sched ∧ turns'.length = turns.length
  | [], w, w', h => by
    refine ⟨[], ?_, rfl⟩
    simp only [tickLoop] at h
    rw [Scheduler.tickLoop]
    cases hqueue : w.sched.readyQueue.dropWhile w.sched.isDone with
    | cons co queue => simp only [hqueue] at h; cases h
    | nil =>
      simp only [hqueue] at h
      cases h
      rfl
  | is :: turns, w, w', h => by
    simp only [tickLoop] at h
    cases hqueue : w.sched.readyQueue.dropWhile w.sched.isDone with
    | nil => simp only [hqueue] at h; cases h
    | cons co queue =>
      simp only [hqueue] at h
      -- what the coroutine did is the first turn
      have hcons {turn : Turn} {frames : List (Frame σ)}
          (h : tickLoop code turns ⟨frames, { w.sched with readyQueue := queue }.resume co turn⟩ =
            some w') :
          ∃ turns', w.sched.tickLoop turns' = some w'.sched ∧
            turns'.length = (is :: turns).length := by
        obtain ⟨turns', hturns, hlength⟩ := tickLoop_sched h
        refine ⟨turn :: turns', ?_, congrArg Nat.succ hlength⟩
        rw [Scheduler.tickLoop, hqueue]
        exact hturns
      by_cases hpending : co ∈ w.sched.timers
      · rw [if_pos hpending] at h
        obtain ⟨-, h⟩ := Option.ite_none_right_eq_some.mp h
        exact hcons h
      · rw [if_neg hpending] at h
        cases hf : w.frames[co]? with
        | none => simp only [hf] at h; cases h
        | some f =>
          simp only [hf] at h
          cases hexec : exec code f is with
          | none => simp only [hexec] at h; cases h
          | some r =>
            simp only [hexec] at h
            exact hcons h

theorem step_sched {e : WorldEvent σ} (h : (worldMachine code).step w e = some w') :
    ∃ call, machine.step w.sched call = some w'.sched := by
  cases e with
  | create x => cases h; exact ⟨.createCoroutine, rfl⟩
  | onFdReady fd => cases h; exact ⟨.onFdReady fd, rfl⟩
  | timer co =>
    obtain ⟨hco, h⟩ := Option.ite_none_right_eq_some.mp h
    cases h
    exact ⟨.timer co, if_pos hco⟩
  | tick turns =>
    obtain ⟨turns', hloop, hlength⟩ := tickLoop_sched h
    refine ⟨.tick turns', ?_⟩
    simp only [machine, Scheduler.tick]
    by_cases hempty : w.sched.readyQueue = []
    · -- an empty queue has no turns
      cases turns' with
      | nil =>
        rw [Scheduler.tickLoop, hempty] at hloop
        have hsame : { w.sched with readyQueue := [] } = w'.sched := Option.some.inj hloop
        rw [← hempty] at hsame
        rw [if_pos hempty, if_pos rfl, Option.map_some, ← hsame]
      | cons turn turns' =>
        rw [Scheduler.tickLoop, hempty] at hloop
        cases hloop
    · rw [if_neg hempty, hloop]
      rfl

theorem heard_step {e : WorldEvent σ} (hs : w.sched.ledger.Sound) (hw : w.Asleep)
    (h : (worldMachine code).step w e = some w') :
    (threads code).runFrom w.view (w.heard code e) = some w'.view ∧ w'.Asleep := by
  cases e with
  | tick turns => exact tickLoop_run hw h
  | create x =>
    cases h
    refine ⟨Machine.runFrom_one (congrArg some ?_), fun co hco => ?_⟩
    · unfold view create
      rw [List.mapIdx_append]
      rfl
    · obtain ⟨next, hnext⟩ := hw co hco
      obtain ⟨hlt, -⟩ := List.getElem?_eq_some_iff.mp hnext
      exact ⟨next, (List.getElem?_append_left hlt).trans hnext⟩
  | onFdReady fd =>
    cases h
    have hsame : (w.sched.onFdReady fd).timers = w.sched.timers := by
      unfold Scheduler.onFdReady
      split
      · rfl
      · split <;> rfl
    refine ⟨congrArg some ?_, fun co hco => hw co (hsame ▸ hco)⟩
    unfold view
    rw [hsame]
  | timer co =>
    obtain ⟨hco, h⟩ := Option.ite_none_right_eq_some.mp h
    cases h
    obtain ⟨next, hnext⟩ := hw co hco
    have htimers : (w.sched.wakeUp co).timers = w.sched.timers.erase co := rfl
    -- a coroutine has one timer
    have hnodup : w.sched.timers.Nodup := by
      have hheld := hs.nodup
      simp only [Scheduler.ledger, Scheduler.handles] at hheld
      exact hheld.of_append_right.of_append_right.of_append_right
    refine ⟨Machine.runFrom_one ?_, fun j hj => hw j (List.mem_of_mem_erase hj)⟩
    have hview : w.view[co]? = some (.asleep next) := by
      rw [getElem?_view, hnext, Option.map_some, decide_eq_true hco]
      rfl
    simp only [threads, hview, Option.some.injEq]
    refine List.ext_getElem? fun j => ?_
    rw [getElem?_view, htimers]
    by_cases hj : j = co
    · subst hj
      obtain ⟨hlt, -⟩ := List.getElem?_eq_some_iff.mp hview
      rw [List.getElem?_set_self hlt, hnext, Option.map_some, decide_eq_false hnodup.not_mem_erase]
      rfl
    · rw [List.getElem?_set_ne (Ne.symm hj), getElem?_view]
      simp only [List.mem_erase_of_ne hj]

theorem trace_runFrom : ∀ {events : List (WorldEvent σ)} {w w' : World σ},
    w.sched.ledger.Sound → w.Asleep → (worldMachine code).runFrom w events = some w' →
    (threads code).runFrom w.view (w.trace code events) = some w'.view
  | [], _, _, _, _, h => by
    cases h
    rfl
  | e :: events, w, w', hs, hw, h => by
    obtain ⟨w₁, h1, h2⟩ := Machine.runFrom_cons h
    obtain ⟨hrun, hw₁⟩ := heard_step hs hw h1
    -- for the scheduler the event was a call
    obtain ⟨call, hcall⟩ := step_sched h1
    rw [trace, h1]
    exact Machine.runFrom_append hrun (trace_runFrom (machine_kept hs hcall) hw₁ h2)

end World

/-- **Coroutines are threads.** In every run of a world, whatever its coroutines do, they are where
threads of their own would be that make the same calls and block in them: each call returned
what its last attempt gave, as the hook took it, or what `SO_ERROR` said, and each sleep
lasted until its timer fired. -/
theorem refines_threads {events : List (WorldEvent σ)} {w : World σ}
    (h : (worldMachine code).run events = some w) :
    (threads code).run (World.trace code {} events) = some w.view :=
  World.trace_runFrom sound_init (fun co hco => by cases hco) h

def echoOnce : Nat → Action Nat
  | 0 => .call (.read 5) fun _ => 1
  | 1 => .call (.write 5) fun _ => 2
  | 2 => .sleep 3
  | _ => .ret

def wouldBlock : Outcome := { ret := -1, errno := .eagain }

def three : Outcome := { ret := 3, errno := .eagain, data := bytes "abc" }

/-- No bytes were written; `errno` is what the last call that failed left. -/
def noBytes : Outcome := { ret := 0, errno := .eagain }

/-- The first attempts to read and to write would block, or are taken for it. -/
def echoed : List (WorldEvent Nat) :=
  [.create 0, .tick [[.sys wouldBlock]], .onFdReady 5, .tick [[.sys three, .sys noBytes]],
    .onFdReady 5, .tick [[.sys three, .go]], .timer 0, .tick [[.go, .go]]]

theorem refines_threads_echoed :
    (threads echoOnce).run [.create 0, .call 0 three, .call 0 three, .act 0, .timer 0, .act 0] =
      some [.done] := by
  have h : (worldMachine echoOnce).run echoed = some ⟨[.done], { states := [.done] }⟩ := rfl
  exact refines_threads h

end Hound.Coro
