import Hound.Coro.Scheduler

/-!
# Coroutines that get lost

A coroutine that is not done and not running lives as long as someone holds a `shared_ptr` to
it: the ready queue, the two maps of waiting coroutines, a `co_sleep` timer. Every operation
moves one pointer in this `ledger`, and two let one go: a plain `Coroutine::yield` passes it
to nobody, and a wait for an fd overwrites the coroutine that waits there already.
`allHeld_iff`: all others keep every coroutine.
-/

namespace Hound.Coro

open Lib Lib.Ledger

/-- Every coroutine that is not done can be resumed. -/
def AllHeld (s : Scheduler) : Prop :=
  ∀ co st, s.states[co]? = some st → st ≠ .done →
    co ∈ s.readyQueue ∨ (∃ fd, s.waitingForRead.lookup fd = some co) ∨
      (∃ fd, s.waitingForWrite.lookup fd = some co) ∨ co ∈ s.timers

/-- The turn does not end in a plain `yield`, nor in a wait for an fd that has its coroutine
already. -/
def Turn.Keeps (s : Scheduler) : Turn → Prop
  | .create next => next.Keeps s
  | .yield => False
  | .coRead fd | .coAccept fd => s.waitingForRead.lookup fd = none
  | .coWrite fd | .coConnect fd => s.waitingForWrite.lookup fd = none
  | .coSleep | .finish => True

/-- Each turn of the loop of `tick` keeps the coroutine it is of and the one it finds. -/
def TurnsKeep : List Turn → Scheduler → Prop
  | [], _ => True
  | turn :: turns, s =>
    match s.readyQueue.dropWhile s.isDone with
    | [] => True
    | co :: queue =>
      turn.Keeps s ∧ TurnsKeep turns ({ s with readyQueue := queue }.resume co turn)

def Call.Keeps (s : Scheduler) : Call → Prop
  | .tick turns => TurnsKeep turns s
  | _ => True

theorem keeps_congr (s s' : Scheduler) (hread : s'.waitingForRead = s.waitingForRead)
    (hwrite : s'.waitingForWrite = s.waitingForWrite) (turn : Turn) :
    turn.Keeps s' ↔ turn.Keeps s := by
  induction turn with
  | create next ih => exact ih
  | coRead fd | coAccept fd => simp only [Turn.Keeps, hread]
  | coWrite fd | coConnect fd => simp only [Turn.Keeps, hwrite]
  | yield | coSleep | finish => rfl

namespace Scheduler

variable {s s' : Scheduler} {co : Nat}

/-! ## The ledger -/

def live (s : Scheduler) : Set Nat := {co | ∃ st, s.states[co]? = some st ∧ st ≠ .done}

def handles (s : Scheduler) : List Nat :=
  s.readyQueue ++ (held s.waitingForRead ++ (held s.waitingForWrite ++ s.timers))

def ledger (s : Scheduler) : Ledger Nat := ⟨s.live, s.handles⟩

/-- While `tick` resumes `co`, it holds it itself. -/
def ledgerWith (s : Scheduler) (co : Nat) : Ledger Nat := ⟨s.live, co :: s.handles⟩

theorem allHeld_iff_noneLost : AllHeld s ↔ s.ledger.NoneLost := by
  simp only [AllHeld, NoneLost, ledger, live, handles, Set.mem_ofPred_eq, List.mem_append,
    mem_held, forall_exists_index, and_imp]

theorem live_setState (h : co ∈ s.live) {st : State} (hst : st ≠ .done) :
    (s.setState co st).live = s.live := by
  obtain ⟨st', hst'⟩ := h
  ext c
  simp only [live, setState, List.getElem?_modify, Set.mem_ofPred_eq]
  by_cases hc : co = c
  · subst hc
    simp [hst', hst]
  · simp [hc]

theorem live_finish (s : Scheduler) (co : Nat) : (s.setState co .done).live = s.live \ {co} := by
  ext c
  simp only [live, setState, List.getElem?_modify, Set.mem_ofPred_eq, Set.mem_sdiff,
    Set.mem_singleton_iff]
  by_cases hc : co = c
  · subst hc
    cases s.states[co]? <;> simp
  · simp [hc, Ne.symm hc]

theorem length_not_live (s : Scheduler) : s.states.length ∉ s.live := by
  simp [live]

theorem live_createCoroutine (s : Scheduler) :
    s.createCoroutine.live = insert s.states.length s.live := by
  ext c
  simp only [live, createCoroutine, schedule, Set.mem_ofPred_eq, Set.mem_insert_iff,
    List.getElem?_append]
  rcases Nat.lt_trichotomy c s.states.length with hc | rfl | hc
  · simp [hc, hc.ne]
  · simp
  · have h0 : ¬ c < s.states.length := by omega
    have h1 : c - s.states.length ≠ 0 := by omega
    simp [h0, hc.ne', h1]

/-! ## The moves of a turn -/

theorem handles_schedule (s : Scheduler) (co : Nat) :
    (s.schedule co).handles.Perm (co :: s.handles) := by
  simp only [handles, schedule, List.append_assoc]
  exact List.perm_middle

theorem handles_read {m : Waiting} (h : (held s.waitingForRead).Perm (co :: held m)) :
    s.handles.Perm (co :: { s with waitingForRead := m }.handles) :=
  perm_push _ (h.append_right _)

theorem handles_write {m : Waiting} (h : (held s.waitingForWrite).Perm (co :: held m)) :
    s.handles.Perm (co :: { s with waitingForWrite := m }.handles) :=
  perm_push _ (perm_push _ (h.append_right _))

theorem handles_timers {l : List Nat} (h : s.timers.Perm (co :: l)) :
    s.handles.Perm (co :: { s with timers := l }.handles) :=
  perm_push _ (perm_push _ (perm_push _ h))

theorem live_yield (h : co ∈ s.live) : (s.yield co).live = s.live :=
  live_setState h (by decide)

theorem moves_yield (h : co ∈ s.live) (hstates : s'.states = s.states)
    (hheld : s'.handles.Perm (co :: s.handles)) :
    Moves True (s.ledgerWith co) (s'.yield co).ledger := by
  have hlive : s'.live = s.live := by rw [live, live, hstates]
  refine .pass ?_ hheld
  exact (live_yield (hlive ▸ h)).trans hlive

theorem drops_yield (h : co ∈ s.live) (hstates : s'.states = s.states) {c : Nat}
    (hheld : (co :: s.handles).Perm (c :: s'.handles)) :
    Moves False (s.ledgerWith co) (s'.yield co).ledger := by
  have hlive : s'.live = s.live := by rw [live, live, hstates]
  refine .drop ?_ hheld
  exact (live_yield (hlive ▸ h)).trans hlive

/-- A wait for `fd` in the map `m`: `rest` is what the others hold, less the coroutine that
waited there. -/
theorem moves_wait {m : Waiting} {fd : Int} {rest : List Nat} (h : co ∈ s.live)
    (hstates : s'.states = s.states) (hheld : s'.handles.Perm (co :: rest))
    (hnone : m.lookup fd = none → s.handles = rest)
    (hsome : ∀ c, m.lookup fd = some c → s.handles.Perm (c :: rest)) :
    Moves (m.lookup fd = none) (s.ledgerWith co) (s'.yield co).ledger := by
  cases hfd : m.lookup fd with
  | none =>
    refine .congr (by simp) (moves_yield h hstates ?_)
    rw [hnone hfd]
    exact hheld
  | some c =>
    refine .congr (by simp) (drops_yield h hstates (c := c) ?_)
    have hswap := ((hsome c hfd).cons co).trans (.swap ..)
    exact hswap.trans (hheld.symm.cons c)

theorem moves_waitForRead (h : co ∈ s.live) (fd : Int) :
    Moves (s.waitingForRead.lookup fd = none) (s.ledgerWith co)
      ((s.waitForRead co fd).yield co).ledger := by
  refine moves_wait h rfl (handles_read (.of_eq (held_insert ..))) (fun hnone => ?_)
    fun c hsome => handles_read (held_perm_of_some hsome)
  rw [handles, ← held_erase_of_none hnone]
  rfl

theorem moves_waitForWrite (h : co ∈ s.live) (fd : Int) :
    Moves (s.waitingForWrite.lookup fd = none) (s.ledgerWith co)
      ((s.waitForWrite co fd).yield co).ledger := by
  refine moves_wait h rfl (handles_write (.of_eq (held_insert ..))) (fun hnone => ?_)
    fun c hsome => handles_write (held_perm_of_some hsome)
  rw [handles, ← held_erase_of_none hnone]
  rfl

theorem moves_createCoroutine (s : Scheduler) : Moves True s.ledger s.createCoroutine.ledger :=
  .create (live_createCoroutine s) (length_not_live s) (handles_schedule _ _)

theorem moves_create_with (s : Scheduler) (co : Nat) :
    Moves True (s.ledgerWith co) (s.createCoroutine.ledgerWith co) :=
  .create (live_createCoroutine s) (length_not_live s)
    (((handles_schedule _ _).cons co).trans (.swap ..))

/-- **A turn keeps what it holds and what it finds, or loses one coroutine.** -/
theorem moves_perform (turn : Turn) :
    ∀ {s : Scheduler}, co ∈ s.live →
      Moves (turn.Keeps s) (s.ledgerWith co) (s.perform co turn).ledger := by
  induction turn with
  | create next ih =>
    intro s h
    have hlive : co ∈ s.createCoroutine.live := by
      rw [live_createCoroutine]
      exact Set.mem_insert_of_mem _ h
    refine .congr ?_ ((moves_create_with s co).andThen (ih hlive))
    exact keeps_congr s s.createCoroutine rfl rfl next
  | yield => exact fun h => drops_yield h rfl (.refl _)
  | coRead fd | coAccept fd => exact fun h => moves_waitForRead h fd
  | coWrite fd | coConnect fd => exact fun h => moves_waitForWrite h fd
  | coSleep =>
    intro s h
    refine moves_yield h rfl ?_
    exact handles_timers (s := { s with timers := s.timers ++ [co] })
      (List.perm_append_singleton ..)
  | finish => exact fun _ => .finish (live_finish _ co) (.refl _)

theorem moves_resume (h : (s.ledgerWith co).Sound) (turn : Turn) :
    Moves (turn.Keeps s) (s.ledgerWith co) (s.resume co turn).ledger := by
  obtain ⟨hnot, -⟩ := List.nodup_cons.mp h.nodup
  have hlive : co ∈ s.live := h.alive co List.mem_cons_self
  have hrun : (s.setState co .running).live = s.live := live_setState hlive (by decide)
  have htimers : co ∉ (s.setState co .running).timers := by
    intro ht
    exact hnot (by simp only [handles, List.mem_append]; exact .inr (.inr (.inr ht)))
  unfold resume
  rw [if_neg htimers]
  have hmoves := moves_perform turn (hrun ▸ hlive)
  rw [ledgerWith, hrun] at hmoves
  exact .congr (keeps_congr s (s.setState co .running) rfl rfl turn) hmoves

theorem dropWhile_isDone (h : s.ledger.Sound) :
    s.readyQueue.dropWhile s.isDone = s.readyQueue := by
  cases hq : s.readyQueue with
  | nil => rfl
  | cons co queue =>
    apply List.dropWhile_cons_of_neg
    obtain ⟨st, hst, hne⟩ := h.alive co (by simp [ledger, handles, hq])
    simpa [isDone, hst] using hne

/-- **The loop of `tick`.** -/
theorem moves_tickLoop :
    ∀ {turns : List Turn} {s s' : Scheduler}, s.tickLoop turns = some s' →
      Moves (TurnsKeep turns s) s.ledger s'.ledger
  | [], s, s', h => .of_sound fun hs => by
    rw [tickLoop, dropWhile_isDone hs] at h
    cases hq : s.readyQueue with
    | nil =>
      rw [hq] at h
      cases h
      refine .pass rfl ?_
      simp [ledger, handles, hq]
    | cons =>
      rw [hq] at h
      cases h
  | turn :: turns, s, s', h => .of_sound fun hs => by
    rw [tickLoop, dropWhile_isDone hs] at h
    rw [TurnsKeep, dropWhile_isDone hs]
    cases hq : s.readyQueue with
    | nil =>
      rw [hq] at h
      cases h
    | cons co queue =>
      rw [hq] at h
      have hpop : Scheduler.ledgerWith { s with readyQueue := queue } co = s.ledger := by
        rw [ledger, handles, hq]
        rfl
      have hturn : Moves _ (Scheduler.ledgerWith { s with readyQueue := queue } co) _ :=
        moves_resume (by rw [hpop]; exact hs) turn
      rw [hpop] at hturn
      refine .trans (.congr ?_ hturn) (moves_tickLoop h)
      exact keeps_congr s { s with readyQueue := queue } rfl rfl turn

theorem moves_onFdReady (s : Scheduler) (fd : Int) :
    Moves True s.ledger (s.onFdReady fd).ledger := by
  unfold onFdReady
  split
  · next co hfd =>
    refine .pass rfl ((handles_schedule _ co).trans ?_)
    exact (handles_read (held_perm_of_some hfd)).symm
  · split
    · next co hfd =>
      refine .pass rfl ((handles_schedule _ co).trans ?_)
      exact (handles_write (held_perm_of_some hfd)).symm
    · exact .pass rfl (.refl _)

theorem moves_wakeUp (h : co ∈ s.timers) : Moves True s.ledger (s.wakeUp co).ledger :=
  .pass rfl ((handles_schedule _ co).trans (handles_timers (List.perm_cons_erase h)).symm)

theorem moves_step {call : Call} (h : machine.step s call = some s') :
    Moves (call.Keeps s) s.ledger s'.ledger := by
  cases call with
  | createCoroutine => cases h; exact moves_createCoroutine s
  | onFdReady fd => cases h; exact moves_onFdReady s fd
  | timer co =>
    obtain ⟨hco, h⟩ := Option.ite_none_right_eq_some.mp h
    cases h
    exact moves_wakeUp hco
  | tick turns =>
    obtain ⟨r, htick, rfl⟩ := Option.map_eq_some_iff.mp h
    unfold tick at htick
    split at htick
    · obtain ⟨hnil, hr⟩ := Option.ite_none_right_eq_some.mp htick
      rw [← Option.some.inj hr, hnil]
      exact .pass rfl (.refl _)
    · obtain ⟨s₁, hloop, rfl⟩ := Option.map_eq_some_iff.mp htick
      exact moves_tickLoop hloop

end Scheduler

open Scheduler

/-! ## Runs -/

theorem sound_init : machine.init.ledger.Sound where
  nodup := List.nodup_nil
  alive _ h := absurd h List.not_mem_nil

theorem machine_kept : machine.Kept fun s => s.ledger.Sound :=
  fun hs h => (moves_step h hs).1

/-- **No coroutine is lost exactly if none yields by itself and none waits for an fd that
another one waits for in the same way.** -/
theorem allHeld_iff {calls : List Call} {s : Scheduler} (h : machine.run calls = some s) :
    machine.Always AllHeld calls ↔ machine.Each Call.Keeps calls := by
  refine Machine.always_iff_each sound_init ?_ machine_kept ?_ h
  · exact allHeld_iff_noneLost.mpr fun _ ⟨_, h, _⟩ => by cases h
  · intro s s' call hs hP hstep
    rw [allHeld_iff_noneLost] at *
    rw [(moves_step hstep hs).2, and_iff_right hP]

/-- One coroutine that reads twice, waiting each time. -/
def reader : List Call :=
  [.createCoroutine, .tick [.coRead 5], .onFdReady 5, .tick [.coRead 5], .onFdReady 5,
    .tick [.finish]]

theorem reader_allHeld_iff :
    machine.Always AllHeld reader ↔ machine.Each Call.Keeps reader :=
  allHeld_iff (s := { states := [.done] }) rfl

/-- A coroutine that yields by itself is not resumed again, and neither is the first of two
that accept from one fd. -/
theorem yields_lost :
    ¬ machine.Always AllHeld [.createCoroutine, .tick [.yield]] ∧
      ¬ machine.Always AllHeld
        [.createCoroutine, .createCoroutine, .tick [.coAccept 4, .coAccept 4]] := by
  constructor
  · intro h
    have hlost := allHeld_iff_noneLost.mp ((h.2 _ rfl).2 _ rfl) 0 ⟨.suspended, rfl, by decide⟩
    revert hlost
    decide
  · intro h
    have hlost := allHeld_iff_noneLost.mp (((h.2 _ rfl).2 _ rfl).2 _ rfl) 0
      ⟨.suspended, rfl, by decide⟩
    revert hlost
    decide

end Hound.Coro
