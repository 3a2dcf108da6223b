import Hound.Coro.Scheduler

/-!
# What `tick` says about the work that is left

`tick` answers `false` at once when nobody is ready, whoever may wait for an event or sleep. It
does not look at the timers of `co_sleep` after its loop either. `tick_tells_iff`: in which runs
each of its answers is right.

The coroutines of this module may also put others into the queue while they run (`Spell`).
Events are delivered by the loop, which does not run while `tick` does.
-/

namespace Hound.Coro

open Hound.Lib

/-- What a coroutine does to the queue without giving up the thread. -/
inductive Act where
  | create
  | schedule (co : Nat)
  deriving DecidableEq

/-- All that a coroutine does between being resumed and switching back. -/
structure Spell where
  acts : List Act := []
  turn : Turn

def Turn.waits : Turn → Bool
  | .create next => next.waits
  | .coRead _ | .coAccept _ | .coWrite _ | .coConnect _ => true
  | .yield | .coSleep | .finish => false

def Turn.sleeps : Turn → Bool
  | .create next => next.sleeps
  | .coSleep => true
  | .coRead _ | .coAccept _ | .coWrite _ | .coConnect _ | .yield | .finish => false

namespace Scheduler

/-- The loop of `tick` for any way to resume a coroutine. -/
def tickLoopWith {τ : Type} (resume : Scheduler → Nat → τ → Scheduler) :
    List τ → Scheduler → Option Scheduler
  | [], s =>
    match s.readyQueue.dropWhile s.isDone with
    | [] => some { s with readyQueue := [] }
    | _ :: _ => none
  | turn :: turns, s =>
    match s.readyQueue.dropWhile s.isDone with
    | [] => none
    | co :: queue => tickLoopWith resume turns (resume { s with readyQueue := queue } co turn)

def tickWith {τ : Type} (resume : Scheduler → Nat → τ → Scheduler) (s : Scheduler)
    (turns : List τ) : Option (Scheduler × Bool) :=
  if s.readyQueue = [] then if turns.isEmpty then some (s, false) else none
  else
    (s.tickLoopWith resume turns).map fun s =>
      (s, !s.waitingForRead.entries.isEmpty || !s.waitingForWrite.entries.isEmpty ||
        !s.readyQueue.isEmpty)

def act (s : Scheduler) : Act → Scheduler
  | .create => s.createCoroutine
  | .schedule co => s.schedule co

/-- `Coroutine::resume`, for a coroutine that may call `schedule`. -/
def resumeSpell (s : Scheduler) (co : Nat) (spell : Spell) : Scheduler :=
  let s := s.setState co .running
  if co ∈ s.timers then s.yield co else (spell.acts.foldl act s).perform co spell.turn

/-- The turns that the coroutines take during `tick`; one that is still in `co_sleep` takes none. -/
def turnsTaken : List Spell → Scheduler → List Turn
  | [], _ => []
  | spell :: spells, s =>
    match s.readyQueue.dropWhile s.isDone with
    | [] => []
    | co :: queue =>
      (if co ∈ s.timers then [] else [spell.turn]) ++
        turnsTaken spells ({ s with readyQueue := queue }.resumeSpell co spell)

def Waits (s : Scheduler) : Prop :=
  s.waitingForRead.entries ≠ [] ∨ s.waitingForWrite.entries ≠ []

def WorkLeft (s : Scheduler) : Prop := s.readyQueue ≠ [] ∨ s.Waits ∨ s.timers ≠ []

variable {s s' : Scheduler} {co : Nat}

theorem tickLoop_eq : ∀ (turns : List Turn) (s : Scheduler),
    s.tickLoop turns = s.tickLoopWith resume turns
  | [], s => by
    cases hq : s.readyQueue.dropWhile s.isDone with
    | nil => simp only [tickLoop, tickLoopWith, hq]
    | cons co queue => simp only [tickLoop, tickLoopWith, hq]
  | turn :: turns, s => by
    cases hq : s.readyQueue.dropWhile s.isDone with
    | nil => simp only [tickLoop, tickLoopWith, hq]
    | cons co queue =>
      simp only [tickLoop, tickLoopWith, hq]
      exact tickLoop_eq turns _

theorem tick_eq (s : Scheduler) (turns : List Turn) : s.tick turns = s.tickWith resume turns := by
  simp only [tick, tickWith, tickLoop_eq, List.isEmpty_iff]

/-! ## One turn -/

theorem acts_frame (acts : List Act) (s : Scheduler) :
    (acts.foldl act s).waitingForRead = s.waitingForRead ∧
      (acts.foldl act s).waitingForWrite = s.waitingForWrite ∧
      (acts.foldl act s).timers = s.timers := by
  induction acts generalizing s with
  | nil => exact ⟨rfl, rfl, rfl⟩
  | cons a acts ih =>
    obtain ⟨hr, hw, ht⟩ := ih (s.act a)
    cases a <;> exact ⟨hr, hw, ht⟩

theorem waits_perform (turn : Turn) (s : Scheduler) :
    (s.perform co turn).Waits ↔ s.Waits ∨ turn.waits = true := by
  induction turn generalizing s with
  | create next ih => exact ih s.createCoroutine
  | coRead fd | coAccept fd => exact iff_of_true (.inl (List.cons_ne_nil _ _)) (.inr rfl)
  | coWrite fd | coConnect fd => exact iff_of_true (.inr (List.cons_ne_nil _ _)) (.inr rfl)
  | yield | coSleep | finish => exact (or_iff_left Bool.false_ne_true).symm

theorem timers_perform (turn : Turn) (s : Scheduler) :
    (s.perform co turn).timers = [] ↔ s.timers = [] ∧ turn.sleeps = false := by
  induction turn generalizing s with
  | create next ih => exact ih s.createCoroutine
  | coSleep =>
    apply iff_of_false
    · exact List.append_ne_nil_of_right_ne_nil _ (List.cons_ne_nil _ _)
    · exact fun h => Bool.noConfusion h.2
  | coRead fd | coAccept fd | coWrite fd | coConnect fd | yield | finish =>
    exact (and_iff_left rfl).symm

theorem resumeSpell_spec (s : Scheduler) (co : Nat) (spell : Spell) :
    ((s.resumeSpell co spell).Waits ↔
        s.Waits ∨ ∃ turn ∈ if co ∈ s.timers then [] else [spell.turn], turn.waits = true) ∧
      ((s.resumeSpell co spell).timers = [] ↔
        s.timers = [] ∧ ∀ turn ∈ if co ∈ s.timers then [] else [spell.turn],
          turn.sleeps = false) := by
  have htimers : (s.setState co .running).timers = s.timers := rfl
  unfold resumeSpell
  simp only [htimers]
  by_cases hco : co ∈ s.timers
  · simp only [hco, if_true, List.not_mem_nil, false_and, exists_false, or_false, false_implies,
      implies_true, and_true]
    exact ⟨Iff.rfl, Iff.rfl⟩
  · simp only [hco, if_false, List.mem_singleton, exists_eq_left, forall_eq]
    obtain ⟨hr, hw, ht⟩ := acts_frame spell.acts (s.setState co .running)
    refine ⟨(waits_perform _ _).trans ?_, (timers_perform _ _).trans ?_⟩
    · rw [Waits, hr, hw]
      rfl
    · rw [ht]
      rfl

/-! ## The loop -/

theorem tickLoopWith_spec : ∀ {spells : List Spell} {s s' : Scheduler},
    s.tickLoopWith resumeSpell spells = some s' →
      s'.readyQueue = [] ∧
      (s'.Waits ↔ s.Waits ∨ ∃ turn ∈ turnsTaken spells s, turn.waits = true) ∧
      (s'.timers = [] ↔ s.timers = [] ∧ ∀ turn ∈ turnsTaken spells s, turn.sleeps = false)
  | [], s, s', h => by
    rw [tickLoopWith] at h
    split at h
    · cases h
      simp [turnsTaken, Waits]
    · cases h
  | spell :: spells, s, s', h => by
    rw [tickLoopWith] at h
    rw [turnsTaken]
    split at h
    · cases h
    · next co queue hq =>
      obtain ⟨hnil, hwaits, htimers⟩ := tickLoopWith_spec h
      obtain ⟨hw, ht⟩ := resumeSpell_spec { s with readyQueue := queue } co spell
      simp only [List.mem_append, or_and_right, exists_or, or_imp, forall_and]
      refine ⟨hnil, hwaits.trans ?_, htimers.trans ?_⟩
      · rw [hw, or_assoc]
        rfl
      · rw [ht, and_assoc]

/-- One call of `tick` answers right exactly under these conditions on what it finds and on
the turns that are taken. -/
theorem tickWith_tells_iff {spells : List Spell} {more : Bool}
    (h : s.tickWith resumeSpell spells = some (s', more)) :
    (more = true ↔ s'.WorkLeft) ↔
      if s.readyQueue = [] then ¬ s.Waits ∧ s.timers = []
      else (s.Waits ∨ ∃ turn ∈ turnsTaken spells s, turn.waits = true) ∨
        s.timers = [] ∧ ∀ turn ∈ turnsTaken spells s, turn.sleeps = false := by
  unfold tickWith at h
  by_cases hq : s.readyQueue = []
  · rw [if_pos hq] at h ⊢
    obtain ⟨-, hr⟩ := Option.ite_none_right_eq_some.mp h
    cases hr
    simp [WorkLeft, hq]
  · rw [if_neg hq] at h ⊢
    obtain ⟨_, hloop, hr⟩ := Option.map_eq_some_iff.mp h
    cases hr
    obtain ⟨hnil, hwaits, htimers⟩ := tickLoopWith_spec hloop
    have hmore : (!s'.waitingForRead.entries.isEmpty || !s'.waitingForWrite.entries.isEmpty ||
        !s'.readyQueue.isEmpty) = true ↔ s'.Waits := by
      simp [hnil, Waits]
    have hleft : s'.WorkLeft ↔ s'.Waits ∨ s'.timers ≠ [] := by
      rw [WorkLeft, hnil]
      simp
    rw [hmore, hleft, ← hwaits, ← htimers]
    by_cases hw : s'.Waits <;> simp [hw]

end Scheduler

open Scheduler

/-! ## Runs -/

/-- What can happen to a scheduler, here also by `schedule`. -/
inductive SpellCall where
  | createCoroutine
  | schedule (co : Nat)
  | tick (spells : List Spell)
  | onFdReady (fd : Int)
  | timer (co : Nat)

def spellMachine : Machine Scheduler SpellCall where
  init := {}
  step s
    | .createCoroutine => some s.createCoroutine
    | .schedule co => if co < s.states.length then some (s.schedule co) else none
    | .tick spells => (s.tickWith resumeSpell spells).map Prod.fst
    | .onFdReady fd => some (s.onFdReady fd)
    | .timer co => if co ∈ s.timers then some (s.wakeUp co) else none

/-- What `tick` returns is whether work is left when it does. -/
def TickTells (s : Scheduler) : SpellCall → Prop
  | .tick spells => ∀ s' more, s.tickWith resumeSpell spells = some (s', more) →
      (more = true ↔ s'.WorkLeft)
  | _ => True

/-- With nobody ready, nobody waits or sleeps. Otherwise someone waits or comes to wait,
or nobody sleeps or comes to sleep. -/
def TickSees (s : Scheduler) : SpellCall → Prop
  | .tick spells =>
    if s.readyQueue = [] then ¬ s.Waits ∧ s.timers = []
    else (s.Waits ∨ ∃ turn ∈ turnsTaken spells s, turn.waits = true) ∨
      s.timers = [] ∧ ∀ turn ∈ turnsTaken spells s, turn.sleeps = false
  | _ => True

/-- **The answers of `tick`.** All of a run are right exactly if each call meets `TickSees`. -/
theorem tick_tells_iff {calls : List SpellCall} {s : Scheduler}
    (h : spellMachine.run calls = some s) :
    spellMachine.Each TickTells calls ↔ spellMachine.Each TickSees calls := by
  refine Machine.eachFrom_congr_of_run (fun {s s' call} hstep => ?_) h
  cases call with
  | tick spells =>
    obtain ⟨⟨t, more⟩, htick, -⟩ := Option.map_eq_some_iff.mp hstep
    rw [← show _ ↔ TickSees s (.tick spells) from tickWith_tells_iff htick]
    constructor
    · exact fun htells => htells t more htick
    · intro htells s₁ more₁ h₁
      cases htick.symm.trans h₁
      exact htells
  | createCoroutine | schedule co | onFdReady fd | timer co => exact Iff.rfl

/-- A coroutine that waits for a descriptor twice, then ends. -/
theorem tick_tells_iff_reader :
    spellMachine.Each TickTells [.createCoroutine, .tick [⟨[], .coRead 5⟩], .onFdReady 5,
        .tick [⟨[], .coWrite 5⟩], .onFdReady 5, .tick [⟨[], .finish⟩]] ↔
      spellMachine.Each TickSees [.createCoroutine, .tick [⟨[], .coRead 5⟩], .onFdReady 5,
        .tick [⟨[], .coWrite 5⟩], .onFdReady 5, .tick [⟨[], .finish⟩]] :=
  tick_tells_iff (s := { states := [.done] }) rfl

/-- A coroutine sleeps, and `tick` says that no work is left; so it does when it is called
again while a coroutine waits to read. -/
theorem sleeper_not_told :
    ¬ spellMachine.Each TickTells [.createCoroutine, .tick [⟨[], .coSleep⟩]] ∧
      ¬ spellMachine.Each TickTells [.createCoroutine, .tick [⟨[], .coRead 5⟩], .tick []] := by
  constructor
  · intro h
    have htold := (h.2 _ rfl).1 _ _ rfl
    exact absurd (htold.mpr (.inr (.inr (by decide)))) (by decide)
  · intro h
    have htold := ((h.2 _ rfl).2 _ rfl).1 _ _ rfl
    exact absurd (htold.mpr (.inr (.inl (.inl (by decide))))) (by decide)

end Hound.Coro
