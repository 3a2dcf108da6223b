import Hound.Reactor.SweepSafe

/-!
# The hand moving on

`Timers.advances` runs the loop of `tick` one slot at a time, each slot at its own time, so
that it is also what several ticks in a row do. Where no callback cancels, a sweep always has a
live iterator, and `Calm` says what it has done to each timer of the wheel.
-/

namespace Hound.Reactor

open Hound.Lib

variable {κ : Type}

namespace Timers

def ticked (now : Timestamp) (s : Timers κ) : Timers κ :=
  { s with wheel := { s.wheel with lastTick := now } }

def advances (cbs : Callbacks κ) (fuel : Nat) :
    List Timestamp → Timers κ → Except TickFault (Timers κ)
  | [], s => .ok s
  | now :: nows, s => ((s.ticked now).advance cbs now fuel).bind (advances cbs fuel nows)

theorem advanceSlots_eq (cbs : Callbacks κ) (now : Timestamp) (fuel : Nat) :
    ∀ {slots : Nat} {s : Timers κ}, s.wheel.Books → s.wheel.lastTick = now →
      s.advanceSlots cbs now fuel slots = s.advances cbs fuel (List.replicate slots now)
  | 0, _, _, _ => rfl
  | slots + 1, s, hw, hlast => by
    have hself : s.ticked now = s := by rw [ticked, ← hlast]
    rw [advanceSlots, List.replicate_succ, advances, hself]
    cases hadv : s.advance cbs now fuel with
    | error e => rfl
    | ok s₁ =>
      have hkept : s₁.wheel.Books ∧ s₁.wheel.lastTick = now := by
        refine sweep_rule (I := fun s _ => s.wheel.Books ∧ s.wheel.lastTick = now) ?_
          ⟨handed_books hw, hlast⟩ hadv
        intro s s' it it' hI hturn
        refine ⟨turn_books hI.1 hturn, ?_⟩
        obtain ⟨done, t, rest, -, -, -, ⟨-, rfl⟩ | ⟨-, rfl⟩⟩ := turn_cases hI.1 hturn
        · exact hI.2
        · exact (TimerWheel.calls_sameFrame _ _).lastTick.trans hI.2
      exact advanceSlots_eq cbs now fuel hkept.1 hkept.2

theorem sweep_mono {cbs : Callbacks κ} {now : Timestamp} (more : Nat) :
    ∀ {fuel : Nat} {s s' : Timers κ} {it : Option Int}, s.sweep cbs now fuel it = .ok s' →
      s.sweep cbs now (fuel + more) it = .ok s'
  | _, _, _, none, h => by
    rw [sweep] at h ⊢
    exact h
  | 0, _, _, some _, h => by cases h
  | fuel + 1, s, s', some it, h => by
    rw [sweep_succ] at h
    rw [Nat.add_right_comm, sweep_succ]
    cases hturn : s.turn cbs now it with
    | error e =>
      rw [hturn] at h
      cases h
    | ok p =>
      rw [hturn] at h
      exact sweep_mono more h

theorem advances_mono {cbs : Callbacks κ} {fuel : Nat} (more : Nat) :
    ∀ {nows : List Timestamp} {s s' : Timers κ}, s.advances cbs fuel nows = .ok s' →
      s.advances cbs (fuel + more) nows = .ok s'
  | [], _, _, h => h
  | now :: nows, s, s', h => by
    rw [advances] at h ⊢
    cases hadv : (s.ticked now).advance cbs now fuel with
    | error e =>
      rw [hadv] at h
      cases h
    | ok s₁ =>
      rw [hadv] at h
      rw [advance, sweep_mono more hadv]
      exact advances_mono more h

/-- The advances at `nows` all come to the end of their buckets and lead from `s` to `s'`. -/
def Advances (cbs : Callbacks κ) (nows : List Timestamp) (s s' : Timers κ) : Prop :=
  ∃ fuel, s.advances cbs fuel nows = .ok s'

theorem advances_nil {cbs : Callbacks κ} {s s' : Timers κ} : Advances cbs [] s s' ↔ s' = s :=
  ⟨fun ⟨_, h⟩ => (Except.ok.inj h).symm, fun h => ⟨0, congrArg _ h.symm⟩⟩

theorem advances_cons {cbs : Callbacks κ} {now : Timestamp} {nows : List Timestamp}
    {s s' : Timers κ} : Advances cbs (now :: nows) s s' ↔
      ∃ s₁, (∃ fuel, (s.ticked now).advance cbs now fuel = .ok s₁) ∧ Advances cbs nows s₁ s' := by
  constructor
  · rintro ⟨fuel, h⟩
    rw [advances] at h
    cases hadv : (s.ticked now).advance cbs now fuel with
    | error e =>
      rw [hadv] at h
      cases h
    | ok s₁ =>
      rw [hadv] at h
      exact ⟨s₁, ⟨fuel, hadv⟩, fuel, h⟩
  · rintro ⟨s₁, ⟨fuel, h⟩, fuel', h'⟩
    refine ⟨fuel + fuel', ?_⟩
    rw [advances, advance, sweep_mono fuel' h, Nat.add_comm]
    exact advances_mono fuel h'

theorem firedSince_trans {s s₁ s₂ : Timers κ} (h : s.ran <+: s₁.ran) (h' : s₁.ran <+: s₂.ran) :
    s.firedSince s₂ = s.firedSince s₁ ++ s₁.firedSince s₂ := by
  obtain ⟨l, hl⟩ := h
  obtain ⟨l', hl'⟩ := h'
  simp [firedSince, ← hl', ← hl, List.append_assoc]

theorem ticked_books {s : Timers κ} (hw : s.wheel.Books) (now : Timestamp) :
    (s.ticked now).wheel.Books := hw.ticked now

theorem advance_books {cbs : Callbacks κ} {now : Timestamp} {s s' : Timers κ} {fuel : Nat}
    (hw : s.wheel.Books) (h : (s.ticked now).advance cbs now fuel = .ok s') :
    s'.wheel.Books ∧ s.ran <+: s'.ran := by
  obtain ⟨turns, g, hrun, rfl, -⟩ := run_of_sweep h
  have hg : g.Inv _ :=
    Machine.invariant (.start (handed_books (ticked_books hw now))) sweepMachine_kept hrun
  exact ⟨hg.books, hg.ran⟩

theorem advances_books {cbs : Callbacks κ} {nows : List Timestamp} {s s' : Timers κ}
    (hw : s.wheel.Books) (h : Advances cbs nows s s') : s'.wheel.Books ∧ s.ran <+: s'.ran := by
  induction nows generalizing s with
  | nil =>
    obtain rfl := advances_nil.mp h
    exact ⟨hw, List.prefix_refl _⟩
  | cons now nows ih =>
    obtain ⟨s₁, ⟨fuel, h1⟩, h2⟩ := advances_cons.mp h
    obtain ⟨hw₁, hran₁⟩ := advance_books hw h1
    obtain ⟨hw', hran'⟩ := ih hw₁ h2
    exact ⟨hw', hran₁.trans hran'⟩

end Timers

/-! ## Sweeps in which nothing is cancelled -/

def NoCancel (cbs : Callbacks κ) : Prop :=
  ∀ n callback, TimerWheel.cancels (cbs n callback) = []

theorem TimerWheel.struck_eq_nil {w : TimerWheel κ} {cs : List (TimerCall κ)}
    (h : cancels cs = []) : w.struck cs = [] := by
  induction cs generalizing w with
  | nil => rfl
  | cons c cs ih =>
    cases c with
    | addTimer | addRepeating => exact ih (by simpa [cancels] using h)
    | cancel timerId => simp [cancels] at h

/-- A sweep of `s₀` whose iterator is alive and that has lost no timer. -/
structure Calm (s₀ : Timers κ) (g : Sweep κ) : Prop where
  inv : g.Inv s₀
  alive : g.Alive
  cancelled : g.cancelled = []

namespace Calm

variable {cbs : Callbacks κ} {now : Timestamp} {s₀ : Timers κ} {g g' : Sweep κ}

theorem start (hw : s₀.wheel.Books) : Calm s₀ (Sweep.start s₀) where
  inv := .start hw
  alive := Sweep.start_alive s₀
  cancelled := rfl

theorem step (hg : Calm s₀ g) (hcbs : NoCancel cbs) (h : g.step cbs now = some g') :
    Calm s₀ g' where
  inv := hg.inv.step h
  alive := by
    refine (Sweep.step_alive_iff hg.inv h).mpr fun t ht next hnext => ?_
    simp [Sweep.asks, ht, hcbs _ _]
  cancelled := by
    obtain ⟨done, olds, news, t, rest, -, -, h | h⟩ := Sweep.step_cases hg.inv h
    · rw [h.cancelled, hg.cancelled]
    · rw [h.cancelled, hg.cancelled, TimerWheel.struck_eq_nil (hcbs _ _)]
      rfl

theorem run (hcbs : NoCancel cbs) (hw : s₀.wheel.Books) {turns : List Unit}
    (h : (sweepMachine cbs now s₀).run turns = some g) : Calm s₀ g :=
  Machine.invariant (.start hw) (fun hg h => hg.step hcbs h) h

theorem other (hg : Calm s₀ g) {i : Nat} {t : Timer κ} (ht : t ∈ s₀.wheel.slot i)
    (hi : i ≠ s₀.wheel.currentSlot) : t ∈ g.wheel.slot i :=
  (hg.inv.others i hi t ht).resolve_left (by simp [hg.cancelled])

theorem waits (hg : Calm s₀ g) {t : Timer κ} (ht : t ∈ s₀.wheel.bucket) (hr : 0 < t.rounds) :
    ∃ u ∈ g.wheel.bucket, u.id = t.id ∧
      (g.it = none → u = { t with rounds := t.rounds - 1 }) := by
  obtain ⟨done, olds, news, hst⟩ := hg.inv.stand hg.alive
  rw [hst.bucket]
  rcases hst.settled t ht with h | h | h | h
  · simp [hg.cancelled] at h
  · refine ⟨t, by simp [h], rfl, fun hnone => ?_⟩
    have hnil : olds ++ news = [] := by simpa [hst.it] using hnone
    rw [(List.append_eq_nil_iff.mp hnil).1] at h
    cases h
  · exact ⟨_, List.mem_append_left _ h.2, rfl, fun _ => rfl⟩
  · exact absurd hr (Int.not_lt.mpr h.1)

/-- By the end of the bucket, or in as many turns as it had timers, the due ones have fired. -/
theorem fired (hg : Calm s₀ g) (hover : g.it = none ∨ s₀.wheel.bucket.length ≤ g.turns)
    {t : Timer κ} (ht : t ∈ s₀.wheel.bucket) (hr : t.rounds ≤ 0) : t ∈ g.fired s₀ :=
  (hg.inv.safe_iff.mpr hg.alive).all hover t ht hr (by simp [hg.cancelled])

theorem exists_run (hcbs : NoCancel cbs) (hw : s₀.wheel.Books) (n : Nat) :
    ∃ turns g, (sweepMachine cbs now s₀).run turns = some g ∧ (g.it = none ∨ n ≤ g.turns) := by
  induction n with
  | zero => exact ⟨[], _, rfl, .inr (Nat.zero_le _)⟩
  | succ n ih =>
    obtain ⟨turns, g, hrun, hover⟩ := ih
    have hg := Calm.run hcbs hw hrun
    cases hit : g.it with
    | none => exact ⟨turns, g, hrun, .inl hit⟩
    | some it =>
      have hok : ∃ p, g.timers.turn cbs now it = .ok p :=
        (Timers.turn_isOk_iff hg.inv.books).mpr (hg.alive it hit)
      obtain ⟨⟨timers, it'⟩, hturn⟩ := hok
      have hle := hover.resolve_left (by simp [hit])
      exact ⟨turns ++ [()], _, Machine.run_concat hrun (Sweep.step_of_turn hit hturn),
        .inr (Nat.succ_le_succ hle)⟩

end Calm

end Hound.Reactor
