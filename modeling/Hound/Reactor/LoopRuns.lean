import Hound.Reactor.EventLoop

/-!
# Runs of the event loop

`tasks_sound`: no interleaving loses, doubles or reorders a pushed task, runs it in the
batch it was pushed during, or leaves it to a loop that sleeps in `poll`. The wakeup may be
skipped before the swap, since the swap of the same iteration takes the task.
`quit_kept_iff`: a call of `quit` is honoured unless `loop()` resets `quit_` after it.
-/

namespace Hound.Reactor

open Hound.Lib

variable {τ : Type} {s s' start : EventLoop τ} {a : LoopStep τ}

def Phase.beforeSwap : Phase → Bool
  | .dispatch _ | .timers | .tasks => true
  | _ => false

namespace EventLoop

/-- The next `poll` does not sleep, or someone is about to write the wakeup. -/
def Woken (s : EventLoop τ) : Prop :=
  0 < s.wakeupCounter ∨ (∃ thread, s.owes thread = true) ∨ s.selfOwes = true

theorem writeWakeup_pos (counter : Nat) : 0 < writeWakeup counter := by
  unfold writeWakeup; split <;> omega

/-- `loop()` is about to be called with `pending_tasks_` empty. -/
structure Ready (s : EventLoop τ) : Prop where
  phase : s.phase = .idle
  calling : s.callingPendingTasks = false
  self : s.selfOwes = false
  pending : s.pendingTasks = []
  batch : s.batch = []
  executed : s.executed = []

structure Inv (s : EventLoop τ) : Prop where
  batch : s.batch ≠ [] → s.phase = .batch
  calling : s.callingPendingTasks = true ↔ s.phase = .tasks ∨ s.phase = .batch
  self : s.selfOwes = true → s.phase = .batch
  awake : s.pendingTasks ≠ [] → s.phase.beforeSwap = true ∨ s.Woken

theorem Ready.inv (h : s.Ready) : s.Inv where
  batch hne := absurd h.batch hne
  calling := by simp [h.calling, h.phase]
  self hs := by simp [h.self] at hs
  awake hne := absurd h.pending hne

theorem Inv.quiet (hs : s.Inv) (h : s.phase ≠ .batch) : s.selfOwes = false ∧ s.batch = [] := by
  constructor
  · exact Bool.eq_false_iff.mpr fun hself => h (hs.self hself)
  · exact not_not.mp fun hne => h (hs.batch hne)

theorem Inv.woken (hs : s.Inv) (h : s.phase.beforeSwap = false) (hne : s.pendingTasks ≠ []) :
    s.Woken := (hs.awake hne).resolve_left (by simp [h])

/-- A step of the loop thread that moves no task, outside the batch. -/
theorem Inv.move (hquiet : s.selfOwes = false ∧ s.batch = [])
    (heq : s'.batch = s.batch ∧ s'.pendingTasks = s.pendingTasks ∧ s'.selfOwes = s.selfOwes)
    (hcalling : s'.callingPendingTasks = true ↔ s'.phase = .tasks ∨ s'.phase = .batch)
    (hawake : s.pendingTasks ≠ [] → s'.phase.beforeSwap = true ∨ s'.Woken) : s'.Inv where
  batch hne := absurd (heq.1.trans hquiet.2) hne
  calling := hcalling
  self h := by
    rw [heq.2.2, hquiet.1] at h
    cases h
  awake hne := hawake (heq.2.1 ▸ hne)

theorem Inv.next (hs : s.Inv) (he : s.Enabled a) : (s.next a).Inv := by
  cases a with
  | enter =>
    have he : s.phase = .idle := he
    refine .move (hs.quiet (by simp [he])) ⟨rfl, rfl, rfl⟩ ?_ fun hne => ?_
    · simpa [EventLoop.next, he] using hs.calling
    · exact .inr (hs.woken (by simp [he, Phase.beforeSwap]) hne)
  | reset =>
    have he : s.phase = .entered := he
    refine .move (hs.quiet (by simp [he])) ⟨rfl, rfl, rfl⟩ ?_ fun hne => ?_
    · simpa [EventLoop.next, he] using hs.calling
    · exact .inr (hs.woken (by simp [he, Phase.beforeSwap]) hne)
  | test =>
    have he : s.phase = .test := he
    have hcalling : s.callingPendingTasks = false := by simpa [he] using hs.calling
    have hwoken := hs.woken (by simp [he, Phase.beforeSwap])
    rw [EventLoop.next]
    split
    · exact .move (hs.quiet (by simp [he])) ⟨rfl, rfl, rfl⟩ (by simp [hcalling])
        fun hne => .inr (hwoken hne)
    · exact .move (hs.quiet (by simp [he])) ⟨rfl, rfl, rfl⟩ (by simp [hcalling])
        fun hne => .inr (hwoken hne)
  | poll wakeup =>
    have he : s.phase = .poll := he.1
    refine .move (hs.quiet (by simp [he])) ⟨rfl, rfl, rfl⟩ ?_ fun _ => .inl rfl
    simpa [EventLoop.next, he] using hs.calling
  | readWakeup =>
    have he : s.phase = .dispatch true := he
    refine .move (hs.quiet (by simp [he])) ⟨rfl, rfl, rfl⟩ ?_ fun _ => .inl rfl
    simpa [EventLoop.next, he] using hs.calling
  | dispatched =>
    have he : s.phase = .dispatch false := he
    refine .move (hs.quiet (by simp [he])) ⟨rfl, rfl, rfl⟩ ?_ fun _ => .inl rfl
    simpa [EventLoop.next, he] using hs.calling
  | ticked =>
    have he : s.phase = .timers := he
    refine .move (hs.quiet (by simp [he])) ⟨rfl, rfl, rfl⟩ ?_ fun _ => .inl rfl
    simp [EventLoop.next]
  | swap =>
    have he : s.phase = .tasks := he
    exact ⟨fun _ => rfl, by simpa [EventLoop.next, he] using hs.calling, fun _ => rfl,
      fun hne => absurd rfl hne⟩
  | runTask =>
    obtain ⟨he, -⟩ := he
    exact ⟨fun _ => he, hs.calling, hs.self, hs.awake⟩
  | endTasks =>
    obtain ⟨he, hself, hbatch⟩ := he
    refine .move ⟨hself, hbatch⟩ ⟨rfl, rfl, rfl⟩ ?_ fun hne => ?_
    · simp [EventLoop.next]
    · exact .inr (hs.woken (by simp [he, Phase.beforeSwap]) hne)
  | post task =>
    obtain ⟨hself, he⟩ := he
    refine ⟨hs.batch, hs.calling, fun h => ?_, fun _ => ?_⟩
    · have := hs.calling.mp h
      rcases he with he | he | he | he <;> simp_all [EventLoop.next, EventLoop.pushBack]
    · rcases he with he | he | he | he
      · exact .inl (by simp [EventLoop.next, EventLoop.pushBack, he, Phase.beforeSwap])
      · exact .inl (by simp [EventLoop.next, EventLoop.pushBack, he, Phase.beforeSwap])
      · exact .inl (by simp [EventLoop.next, EventLoop.pushBack, he, Phase.beforeSwap])
      · exact .inr (.inr (.inr (hs.calling.mpr (.inr he))))
  | push thread task =>
    exact ⟨hs.batch, hs.calling, hs.self,
      fun _ => .inr (.inr (.inl ⟨thread, Function.update_self ..⟩))⟩
  | wakeSelf =>
    exact ⟨hs.batch, hs.calling, fun h => (Bool.false_ne_true h).elim,
      fun _ => .inr (.inl (writeWakeup_pos _))⟩
  | wake | quitWake =>
    exact ⟨hs.batch, hs.calling, hs.self, fun _ => .inr (.inl (writeWakeup_pos _))⟩
  | quitStore =>
    exact ⟨hs.batch, hs.calling, hs.self, hs.awake⟩

theorem machine_kept : (machine start).Kept Inv := by
  intro s s' a hs h
  obtain ⟨he, rfl⟩ := machine_step h
  exact hs.next he

/-! ## The tasks -/

/-- The tasks that these steps push, in lock order. -/
def pushesOf (steps : List (LoopStep τ)) : List τ :=
  steps.filterMap fun
    | .post task | .push _ task => some task
    | _ => none

/-- Where the tasks pushed by `steps` are: each has been run, is in the batch or is queued, and
only those that were there at the last swap have left the queue. -/
structure Accounts (steps : List (LoopStep τ)) (s : EventLoop τ) : Prop where
  order : s.executed ++ s.batch ++ s.pendingTasks = pushesOf steps
  sealed : ∀ before after, steps = before ++ .swap :: after → .swap ∉ after →
    s.executed ++ s.batch = pushesOf before
  unswapped : .swap ∉ steps → s.executed ++ s.batch = []

variable {steps : List (LoopStep τ)}

theorem pushesOf_concat (steps : List (LoopStep τ)) (a : LoopStep τ) :
    pushesOf (steps ++ [a]) = pushesOf steps ++ pushesOf [a] := List.filterMap_append ..

/-- A step that swaps nothing leaves what was taken out of the queue. -/
theorem Accounts.unsealed (h : Accounts steps s) (ha : a ≠ .swap)
    (hsame : s'.executed ++ s'.batch = s.executed ++ s.batch)
    (hqueue : s'.pendingTasks = s.pendingTasks ++ pushesOf [a]) :
    Accounts (steps ++ [a]) s' where
  order := by rw [hsame, hqueue, ← List.append_assoc, h.order, pushesOf_concat]
  sealed before after heq hafter := by
    rw [hsame]
    rcases List.eq_nil_or_concat' after with rfl | ⟨after, last, rfl⟩
    · have hlast := (List.append_inj' heq rfl).2
      exact absurd (List.singleton_inj.mp hlast) ha
    · rw [← List.cons_append, ← List.append_assoc] at heq
      exact h.sealed before after (List.append_inj' heq rfl).1
        fun hin => hafter (List.mem_append_left _ hin)
  unswapped hno := by
    rw [hsame]
    exact h.unswapped fun hin => hno (List.mem_append_left _ hin)

theorem Accounts.swap (h : Accounts steps s) (hbatch : s.batch = []) :
    Accounts (steps ++ [.swap]) (s.next .swap) := by
  have htaken : s.executed ++ s.pendingTasks = pushesOf steps := by
    rw [← h.order, hbatch, List.append_nil]
  refine ⟨?_, fun before after heq hafter => ?_, fun hno => absurd (by simp) hno⟩
  · rw [pushesOf_concat, ← htaken]
    simp [EventLoop.next, pushesOf]
  · -- nothing comes after the last swap
    rcases List.eq_nil_or_concat' after with rfl | ⟨after, last, rfl⟩
    · rw [← (List.append_inj' heq rfl).1]
      exact htaken
    · rw [← List.cons_append, ← List.append_assoc] at heq
      have hlast := List.singleton_inj.mp (List.append_inj' heq rfl).2
      exact absurd (by simp [← hlast]) hafter

theorem Accounts.next (h : Accounts steps s) (hs : s.Inv) (he : s.Enabled a) :
    Accounts (steps ++ [a]) (s.next a) := by
  cases a with
  | swap =>
    have he : s.phase = .tasks := he
    exact h.swap (hs.quiet (by simp [he])).2
  | runTask =>
    obtain ⟨task, rest, hb⟩ := List.exists_cons_of_ne_nil he.2.2
    exact h.unsealed nofun (by simp [EventLoop.next, hb]) (List.append_nil _).symm
  | test =>
    rw [EventLoop.next]
    split <;> exact h.unsealed nofun rfl (List.append_nil _).symm
  | post | push => exact h.unsealed nofun rfl rfl
  | _ => exact h.unsealed nofun rfl (List.append_nil _).symm

/-- **The task queue.** In every state that a loop entered with an empty queue reaches: the
tasks run, the rest of the batch and the queue are the tasks that were pushed, in lock order; what
was run or is left in the batch was pushed before the last swap; and a loop at `poll` with tasks
waiting will be woken. -/
theorem tasks_sound (h0 : start.Ready) (h : (machine start).run steps = some s) :
    s.executed ++ s.batch ++ s.pendingTasks = pushesOf steps ∧
    (∀ before after, steps = before ++ .swap :: after → .swap ∉ after →
      s.executed ++ s.batch = pushesOf before) ∧
    (.swap ∉ steps → s.executed ++ s.batch = []) ∧
    (s.phase = .poll → s.pendingTasks ≠ [] →
      0 < s.wakeupCounter ∨ ∃ thread, s.owes thread = true) := by
  have hinit : Accounts [] start := by
    have hnone : start.executed ++ start.batch = [] := by rw [h0.executed, h0.batch]; rfl
    exact ⟨by rw [hnone, h0.pending]; rfl, fun before after heq => by simp at heq, fun _ => hnone⟩
  obtain ⟨hs, hacc⟩ := Machine.history (I := fun steps s => s.Inv ∧ Accounts steps s)
    ⟨h0.inv, hinit⟩ (fun ⟨hs, hacc⟩ hstep => by
      obtain ⟨he, rfl⟩ := machine_step hstep
      exact ⟨hs.next he, hacc.next hs he⟩) h
  refine ⟨hacc.order, hacc.sealed, hacc.unswapped, fun hp hne => ?_⟩
  rcases hs.woken (by simp [hp, Phase.beforeSwap]) hne with hw | hw | hw
  · exact .inl hw
  · exact .inr hw
  · rw [(hs.quiet (by simp [hp])).1] at hw
    cases hw

/-- A push before the poll, one by the loop thread while it dispatches, and one during the batch. -/
def pushes : List (LoopStep Nat) :=
  [.enter, .reset, .push 0 7, .test, .wake 0, .poll true, .readWakeup, .post 8, .dispatched,
    .ticked, .swap, .runTask, .push 1 9, .runTask, .endTasks, .test]

/-- The run goes through and ends at `poll`: two tasks have run, the third is queued, and its thread
still owes the wakeup. -/
theorem pushes_sound : ∃ s, (machine {}).run pushes = some s ∧ s.phase = .poll ∧
    s.executed = [7, 8] ∧ s.pendingTasks = [9] ∧
    s.executed ++ s.batch ++ s.pendingTasks = [7, 8, 9] ∧ s.executed ++ s.batch = [7, 8] ∧
    (0 < s.wakeupCounter ∨ ∃ thread, s.owes thread = true) := by
  have h0 : ({} : EventLoop Nat).Ready := ⟨rfl, rfl, rfl, rfl, rfl, rfl⟩
  obtain ⟨s, h⟩ : ∃ s, (machine {}).run pushes = some s := ⟨_, rfl⟩
  obtain ⟨horder, hsealed, -, hwoken⟩ := tasks_sound h0 h
  have htaken := hsealed (pushes.take 10) (pushes.drop 11) rfl (by simp [pushes])
  cases h
  exact ⟨_, rfl, rfl, rfl, rfl, horder, htaken, hwoken rfl (List.cons_ne_nil _ _)⟩

/-! ## `quit` -/

/-- Once `quit` has set `quit_` it stays set and no iteration begins. -/
def QuitKept (s : EventLoop τ) : Prop := s.quitCall ≠ .before → s.quit = true ∧ s.late = 0

/-- `quit_ = false` is not executed after `quit` has set `quit_`. -/
def ResetFirst (s : EventLoop τ) : LoopStep τ → Prop
  | .reset => s.quitCall = .before
  | _ => True

/-- The loop exists and neither `loop()` nor `quit()` was called. -/
structure Constructed (s : EventLoop τ) : Prop where
  phase : s.phase = .idle
  quitCall : s.quitCall = .before
  late : s.late = 0

theorem late_kept : (machine start).Kept fun s => s.quitCall = .before → s.late = 0 := by
  intro s s' a hs h
  obtain ⟨-, rfl⟩ := machine_step h
  cases a with
  | test =>
    rw [EventLoop.next]
    split
    · exact hs
    · intro hq
      simp only [if_pos hq]
      exact hs hq
  | quitStore | quitWake => exact fun hq => by cases hq
  | _ => exact hs

/-- A step keeps the promise exactly if it is not the reset after the store. -/
theorem quitKept_step (hl : s.quitCall = .before → s.late = 0) (hk : s.QuitKept)
    (h : (machine start).step s a = some s') : s'.QuitKept ↔ s.ResetFirst a := by
  obtain ⟨he, rfl⟩ := machine_step h
  cases a with
  | reset =>
    constructor
    · intro hk'
      exact not_not.mp fun hq => Bool.false_ne_true (hk' hq).1
    · exact fun hr hq => absurd hr hq
  | test =>
    refine iff_of_true ?_ trivial
    rw [EventLoop.next]
    split
    · exact hk
    · next hquit => exact fun hq => absurd (hk hq).1 hquit
  | quitStore => exact iff_of_true (fun _ => ⟨rfl, hl he⟩) trivial
  | quitWake =>
    have hq : s.quitCall = .stored := he
    exact iff_of_true (fun _ => hk (by simp [hq])) trivial
  | _ => exact iff_of_true hk trivial

/-- **A quit request is kept exactly when the reset comes first.** In a run of `loop()`
with one call of `quit()` from another thread, `quit_` stays set and no iteration begins
after it is set if and only if `loop()` does not execute `quit_ = false` after that. -/
theorem quit_kept_iff (h0 : start.Constructed) {steps : List (LoopStep τ)}
    (h : (machine start).run steps = some s) :
    (machine start).Always QuitKept steps ↔ (machine start).Each ResetFirst steps :=
  Machine.always_iff_each (I := fun s => s.quitCall = .before → s.late = 0) (fun _ => h0.late)
    (fun hq => absurd h0.quitCall hq) late_kept quitKept_step h

/-- `quit()` comes first; the loop then goes to `poll`. -/
def quitFirst : List (LoopStep Unit) := [.quitStore, .quitWake, .enter, .reset, .test]

theorem quitFirst_iff :
    (machine {}).Always QuitKept quitFirst ↔ (machine {}).Each ResetFirst quitFirst :=
  quit_kept_iff ⟨rfl, rfl, rfl⟩ rfl

theorem quitFirst_lost : ¬ (machine {}).Always QuitKept quitFirst := by
  intro h
  obtain ⟨-, h⟩ := h
  obtain ⟨-, h⟩ := h _ rfl
  obtain ⟨-, h⟩ := h _ rfl
  obtain ⟨-, h⟩ := h _ rfl
  obtain ⟨hk, -⟩ := h _ rfl
  exact Bool.false_ne_true (hk (by decide)).1

end EventLoop

end Hound.Reactor
