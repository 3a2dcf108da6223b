import Hound.Reactor.Sweep

/-!
# Safe sweeps

A sweep is safe as long as its iterator is alive (`Sweep.Inv.safe_iff`), and the iterator
survives a turn exactly when the callback spares the timer behind its own
(`Sweep.step_alive_iff`). The turns are those of the loop in `tick`: they lead to the end of
the bucket where `Timers.sweep` does, and to a dead iterator where it looks at a deleted timer.
-/

namespace Hound.Reactor

open Hound.Lib

variable {κ : Type}

/-- The callback of the next turn leaves the timer behind its own alone. -/
def Sweep.SparesNext (cbs : Callbacks κ) (s : Sweep κ) : Prop :=
  ∀ t, s.due = some t → ∀ next, nextIter t.id s.wheel.bucket = some next →
    next ∉ TimerWheel.cancels (s.asks cbs)

/-- The iterator is alive, no timer fires twice or after it was cancelled, and by the end of the
bucket, or after as many turns as it had timers, the due ones have fired. -/
structure SafeSweep (s₀ : Timers κ) (s : Sweep κ) : Prop where
  alive : s.Alive
  spared : ∀ t ∈ s.fired s₀, t.id ∉ s.cancelled
  once : ((s.fired s₀).map (·.id)).Nodup
  all : s.it = none ∨ s₀.wheel.bucket.length ≤ s.turns →
    ∀ t ∈ s₀.wheel.bucket, t.rounds ≤ 0 → t.id ∉ s.cancelled → t ∈ s.fired s₀

namespace Sweep

variable {cbs : Callbacks κ} {now : Timestamp} {s₀ : Timers κ} {s s' : Sweep κ}

theorem Inv.safe_iff (hs : s.Inv s₀) : SafeSweep s₀ s ↔ s.Alive := by
  refine ⟨(·.alive), fun halive => ⟨halive, hs.spared, hs.once, fun hover t ht hr hc => ?_⟩⟩
  obtain ⟨done, olds, news, hst⟩ := hs.stand halive
  have holds : olds = [] := by
    rcases hover with hnone | hturns
    · have hnil : olds ++ news = [] := by simpa [hst.it] using hnone
      exact (List.append_eq_nil_iff.mp hnil).1
    · rcases hst.turns with h | h
      · exact h
      · exact List.length_eq_zero_iff.mp (by omega)
  rcases hst.settled t ht with h | h | h | h
  · exact absurd h hc
  · rw [holds] at h
    cases h
  · exact absurd h.1 (Int.not_lt.mpr hr)
  · exact h.2

/-- The iterator survives a step exactly when the callback spares the timer behind its own. -/
theorem step_alive_iff (hs : s.Inv s₀) (h : s.step cbs now = some s') :
    s'.Alive ↔ s.SparesNext cbs := by
  obtain ⟨done, olds, news, t, rest, -, -, h | h⟩ := step_cases hs h
  · refine ⟨fun _ u hu => by simp [h.due] at hu, fun _ it hits => ?_⟩
    rw [h.it] at hits
    obtain ⟨next, hnext, rfl⟩ := Option.map_eq_some_iff.mp hits
    refine ⟨next, ?_, rfl⟩
    rw [h.bucket' hs]
    exact List.mem_append_right _ (List.mem_cons_of_mem _ (List.mem_of_head? hnext))
  · have hne := hs.books.inv.ne_of_split h.bucket
    have hnext : nextIter t.id s.wheel.bucket = rest.head?.map (·.id) :=
      h.bucket ▸ Timers.nextIter_eq fun u hu => hne u (List.mem_append_left _ hu)
    rw [Alive, h.it, SparesNext]
    simp only [h.due, asks, Option.some.injEq, forall_eq', hnext]
    refine forall_congr' fun it => forall_congr' fun hit => ?_
    obtain ⟨next, hhead, rfl⟩ := Option.map_eq_some_iff.mp hit
    rw [h.next_iff hs hhead, Timers.cancels_firing, List.mem_cons,
      or_iff_right (hne next (List.mem_append_right _ (List.mem_of_head? hhead)))]

end Sweep

section Runs

variable {cbs : Callbacks κ} {now : Timestamp} {s₀ : Timers κ}

theorem sweepMachine_kept : (sweepMachine cbs now s₀).Kept (Sweep.Inv s₀) :=
  fun hs h => hs.step h

theorem run_of_sweep {fuel : Nat} {s : Timers κ}
    (h : s₀.sweep cbs now fuel (Sweep.start s₀).it = .ok s) :
    ∃ turns g, (sweepMachine cbs now s₀).run turns = some g ∧ g.timers = s ∧ g.it = none := by
  refine Timers.sweep_rule (I := fun s it => ∃ turns g,
    (sweepMachine cbs now s₀).run turns = some g ∧ g.timers = s ∧ g.it = it) ?_
    ⟨[], _, rfl, rfl, rfl⟩ h
  rintro s s' it it' ⟨turns, g, hrun, rfl, hit⟩ hturn
  exact ⟨turns ++ [()], _, Machine.run_concat hrun (Sweep.step_of_turn hit hturn), rfl, rfl⟩

theorem sweep_of_step {fuel : Nat} {g g' : Sweep κ} (h : g.step cbs now = some g') :
    g.timers.sweep cbs now (fuel + 1) g.it = g'.timers.sweep cbs now fuel g'.it := by
  unfold Sweep.step at h
  split at h
  · cases h
  · next it hit =>
    split at h
    · cases h
    · next hturn =>
      cases h
      rw [hit, Timers.sweep_succ, hturn]
      rfl

theorem sweep_of_runFrom {turns : List Unit} {fuel : Nat} {g g' : Sweep κ}
    (h : (sweepMachine cbs now s₀).runFrom g turns = some g') :
    g.timers.sweep cbs now (fuel + turns.length) g.it =
      g'.timers.sweep cbs now fuel g'.it := by
  induction turns generalizing g with
  | nil =>
    cases h
    rfl
  | cons _ turns ih =>
    obtain ⟨g₁, h1, h2⟩ := Machine.runFrom_cons h
    rw [← ih h2, List.length_cons, ← Nat.add_assoc]
    exact sweep_of_step h1

/-- A sweep that looks at a deleted timer is a run of turns to a dead iterator. -/
theorem runFrom_of_dangling {fuel : Nat} {g : Sweep κ} (hg : g.Inv s₀)
    (h : g.timers.sweep cbs now fuel g.it = .error .dangling) :
    ∃ turns g', (sweepMachine cbs now s₀).runFrom g turns = some g' ∧ ¬ g'.Alive := by
  by_cases halive : g.Alive
  · cases hit : g.it with
    | none =>
      rw [hit, Timers.sweep] at h
      cases h
    | some it =>
      cases fuel with
      | zero =>
        rw [hit] at h
        cases h
      | succ fuel =>
        have hok : ∃ p, g.timers.turn cbs now it = .ok p :=
          (Timers.turn_isOk_iff hg.books).mpr (halive it hit)
        obtain ⟨⟨timers, it'⟩, hturn⟩ := hok
        have hstep := Sweep.step_of_turn hit hturn
        rw [sweep_of_step hstep] at h
        obtain ⟨turns, g', hrun, hdead⟩ := runFrom_of_dangling (hg.step hstep) h
        exact ⟨() :: turns, g', Option.bind_eq_some_iff.mpr ⟨_, hstep, hrun⟩, hdead⟩
  · exact ⟨[], g, rfl, halive⟩

/-- The sweep looks at a deleted timer exactly when the turns come to a dead iterator. -/
theorem sweep_dangling_iff (hw : s₀.wheel.Books) :
    (∃ fuel, s₀.sweep cbs now fuel (Sweep.start s₀).it = .error .dangling) ↔
      ∃ turns g, (sweepMachine cbs now s₀).run turns = some g ∧ ¬ g.Alive := by
  refine ⟨fun ⟨fuel, h⟩ => runFrom_of_dangling (.start hw) h, ?_⟩
  rintro ⟨turns, g, hrun, hdead⟩
  have hg : g.Inv s₀ := Machine.invariant (.start hw) sweepMachine_kept hrun
  refine ⟨1 + turns.length, (sweep_of_runFrom hrun).trans ?_⟩
  unfold Sweep.Alive at hdead
  push Not at hdead
  obtain ⟨it, hit, hnone⟩ := hdead
  rw [hit, Timers.sweep_succ, (Timers.turn_dangling_iff hg.books).mpr (by simpa using hnone)]
  rfl

/-- **A sweep survives its callbacks exactly when they spare the next timer.** Over every wheel
and all callbacks, the turns of a sweep never look at a deleted timer, never fire a cancelled
one and fire every other due timer of the bucket once, if and only if no callback cancels the
timer that stands behind the one it belongs to. -/
theorem sweep_safe_iff (hw : s₀.wheel.Books) {turns : List Unit} {s : Sweep κ}
    (h : (sweepMachine cbs now s₀).run turns = some s) :
    (sweepMachine cbs now s₀).Always (SafeSweep s₀) turns ↔
      (sweepMachine cbs now s₀).Each (fun s _ => s.SparesNext cbs) turns := by
  have h0 : (Sweep.start s₀).Inv s₀ := .start hw
  refine Machine.always_iff_each (I := Sweep.Inv s₀) h0
    (h0.safe_iff.mpr (Sweep.start_alive s₀)) sweepMachine_kept ?_ h
  intro s s' _ hs _ hstep
  exact ((hs.step hstep).safe_iff).trans (Sweep.step_alive_iff hs hstep)

end Runs

def peers (first second : Option Int) : Timers (Option Int) :=
  Timers.handed ⟨((TimerWheel.new 10 6000 ⟨0⟩).addTimer ⟨10000⟩ first).addTimer ⟨10000⟩ second, []⟩

def cancelOne : Callbacks (Option Int) := fun _ callback => callback.toList.map .cancel

theorem peers_books (first second : Option Int) : (peers first second).wheel.Books :=
  Timers.handed_books (((TimerWheel.Books.new (by decide) 10 ⟨0⟩).addRepeating ..).addRepeating ..)

/-- The second of two timers cancels the first. -/
theorem sweep_safe_iff_peers :
    (sweepMachine cancelOne ⟨10000⟩ (peers none (some 1))).Always
        (SafeSweep (peers none (some 1))) [(), ()] ↔
      (sweepMachine cancelOne ⟨10000⟩ (peers none (some 1))).Each
        (fun s _ => s.SparesNext cancelOne) [(), ()] :=
  sweep_safe_iff (peers_books _ _) rfl

/-- The first of two timers cancels the second: the iterator is left on a deleted timer. -/
theorem peers_cancelled : ¬ (sweepMachine cancelOne ⟨10000⟩ (peers (some 2) none)).Always
    (SafeSweep (peers (some 2) none)) [()] := by
  intro h
  obtain ⟨-, h⟩ := h
  obtain ⟨t, ht, -⟩ := (h _ rfl).alive 2 rfl
  cases ht

end Hound.Reactor
