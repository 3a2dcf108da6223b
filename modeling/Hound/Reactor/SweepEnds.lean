import Hound.Lib.Ring
import Hound.Reactor.Advance
import Hound.Reactor.WheelBooks

/-!
# Sweeps that end

A callback that adds a timer which is due at once may keep a sweep in its bucket for ever. If
everything that is added lands at least one tick ahead (`KeepsAhead`), every sweep comes to the
end of its bucket and every run of advances goes through (`KeepsAhead.advances`).
-/

namespace Hound.Reactor

open Hound.Lib

variable {κ : Type}

/-- A timer added at `now` for `when` is at least one tick off, and its rounds are in range. -/
def LandsAhead (tickMs slotCount : Nat) (now when : Timestamp) : Prop :=
  0 < (when.diffMs now).toNat / tickMs ∧
    (when.diffMs now).toNat / tickMs / slotCount < 2 ^ 31 ∧ tickMs * slotCount < 2 ^ 31

/-- What callbacks add lands ahead, and so does every repetition. -/
structure KeepsAhead (cbs : Callbacks κ) (nows : List Timestamp) (w : TimerWheel κ) : Prop where
  adds : ∀ n callback, ∀ c ∈ cbs n callback, ∀ a ∈ c.adds, ∀ now ∈ nows,
    LandsAhead w.tickMs w.slotCount now a.1 ∧
      (a.2.1.positive → LandsAhead w.tickMs w.slotCount now (now.addSeconds a.2.1))
  pending : ∀ t ∈ w.pending, t.interval.positive → ∀ now ∈ nows,
    LandsAhead w.tickMs w.slotCount now (now.addSeconds t.interval)

section Turn

variable {cbs : Callbacks κ} {now : Timestamp} {nows : List Timestamp} {s s' : Timers κ}

/-- What a turn that fires adds lands ahead, and so do its repetitions. -/
theorem KeepsAhead.firing (hk : KeepsAhead cbs nows s.wheel) (hnow : now ∈ nows) {t : Timer κ}
    (ht : t ∈ s.wheel.pending) {c : TimerCall κ}
    (hc : c ∈ Timers.firing cbs now s.ran.length t) {a : Timestamp × Seconds × κ}
    (ha : a ∈ c.adds) : LandsAhead s.wheel.tickMs s.wheel.slotCount now a.1 ∧
      (a.2.1.positive → ∀ now' ∈ nows,
        LandsAhead s.wheel.tickMs s.wheel.slotCount now' (now'.addSeconds a.2.1)) := by
  rw [Timers.firing, List.mem_cons, List.mem_append] at hc
  rcases hc with rfl | hc | hc
  · cases ha
  · exact ⟨(hk.adds _ _ c hc a ha now hnow).1,
      fun hpos now' hnow' => (hk.adds _ _ c hc a ha now' hnow').2 hpos⟩
  · split at hc
    · next hpos =>
      rw [List.mem_singleton.mp hc] at ha
      cases ha
      exact ⟨hk.pending t ht hpos now hnow, hk.pending t ht⟩
    · cases hc

theorem KeepsAhead.turn (hk : KeepsAhead cbs nows s.wheel) (hw : s.wheel.Books)
    (hnow : now ∈ nows) {it : Int} {it' : Option Int}
    (h : s.turn cbs now it = .ok (s', it')) : KeepsAhead cbs nows s'.wheel := by
  obtain ⟨done, t, rest, hb, -, -, ⟨-, rfl⟩ | ⟨-, rfl⟩⟩ := Timers.turn_cases hw h
  · refine ⟨hk.adds, fun u hu hpos => ?_⟩
    rcases TimerWheel.pending_counted hw hb hu with hu | ⟨ht, rfl⟩
    · exact hk.pending u hu hpos
    · exact hk.pending t ht hpos
  · have hf := TimerWheel.calls_sameFrame (Timers.firing cbs now s.ran.length t) s.wheel
    refine ⟨?_, fun u hu hpos => ?_⟩
    · rw [hf.tickMs, hf.slotCount]
      exact hk.adds
    · rw [hf.tickMs, hf.slotCount]
      rcases TimerWheel.mem_calls hw hu with ⟨hold, -⟩ | ⟨i, hnew⟩
      · exact hk.pending u hold hpos
      · obtain ⟨c, hc, hadds⟩ := hnew.asked
        have ht : t ∈ s.wheel.pending := TimerWheel.mem_pending_iff.mpr
          ⟨s.wheel.currentSlot, by rw [← TimerWheel.bucket_eq, hb]; simp⟩
        exact (hk.firing hnow ht hc hadds).2 hpos

theorem KeepsAhead.placed (hk : KeepsAhead cbs nows s.wheel) (hw : s.wheel.Books)
    (hnow : now ∈ nows) (hlast : s.wheel.lastTick = now) {t u : Timer κ}
    (ht : t ∈ s.wheel.pending)
    (hu : s.wheel.Placed (Timers.firing cbs now s.ran.length t) s.wheel.currentSlot u) :
    0 < u.rounds := by
  obtain ⟨c, hc, hadds⟩ := hu.asked
  obtain ⟨⟨hpos, hlt, hturn⟩, -⟩ := hk.firing hnow ht hc hadds
  dsimp only at hpos hlt hturn
  have hslot := hu.slot
  rw [TimerWheel.slotFor, hlast] at hslot
  have hmod := ahead_add_mod hw.hand ((u.expiration.diffMs now).toNat / s.wheel.tickMs)
  rw [hslot, ahead_self hw.hand] at hmod
  have hrem : (u.expiration.diffMs now).toNat / s.wheel.tickMs % s.wheel.slotCount = 0 := by
    have := Nat.mod_lt ((u.expiration.diffMs now).toNat / s.wheel.tickMs) hw.inv.slots
    split at hmod <;> omega
  have hdiv := Nat.div_add_mod ((u.expiration.diffMs now).toNat / s.wheel.tickMs)
    s.wheel.slotCount
  have hround : 0 < (u.expiration.diffMs now).toNat / s.wheel.tickMs / s.wheel.slotCount := by
    refine Nat.pos_of_ne_zero fun hzero => ?_
    rw [hzero, hrem] at hdiv
    omega
  rw [hu.rounds, TimerWheel.deltaMs, hlast, TimerWheel.roundsFor_eq hturn,
    ← Nat.div_div_eq_div_mul, toInt_eq hlt]
  exact Int.natCast_pos.mpr hround

/-! ## The end of the bucket -/

theorem bucket_counted (hw : s.wheel.Books) (done : List (Timer κ)) (t : Timer κ)
    (rest : List (Timer κ)) :
    (s.wheel.setBucket (done ++ { t with rounds := t.rounds - 1 } :: rest)).bucket =
      (done ++ [{ t with rounds := t.rounds - 1 }]) ++ rest := by
  rw [TimerWheel.bucket_eq, TimerWheel.slot_setBucket hw]
  simp [TimerWheel.setBucket]

theorem sweep_counts {todo : List (Timer κ)} :
    ∀ {s : Timers κ} {done : List (Timer κ)}, s.wheel.Books → s.wheel.bucket = done ++ todo →
      (∀ t ∈ todo, 0 < t.rounds) →
        ∃ s', s.sweep cbs now todo.length (todo.head?.map (·.id)) = .ok s' := by
  induction todo with
  | nil => exact fun _ _ _ => ⟨_, by rw [List.head?_nil, Option.map_none, Timers.sweep]⟩
  | cons t rest ih =>
    intro s done hw hb hr
    obtain ⟨hpos, hrest⟩ := List.forall_mem_cons.mp hr
    rw [List.head?_cons, Option.map_some, List.length_cons, Timers.sweep_succ,
      Timers.turn_eq hw hb, if_pos hpos]
    exact ih (hw.setBucket (by simp [hb])) (bucket_counted hw done t rest) hrest

theorem sweep_of_turn {it : Int} {it' : Option Int} (hturn : s.turn cbs now it = .ok (s', it'))
    (h : ∃ fuel s₁, s'.sweep cbs now fuel it' = .ok s₁) :
    ∃ fuel s₁, s.sweep cbs now fuel (some it) = .ok s₁ := by
  obtain ⟨fuel, s₁, h⟩ := h
  exact ⟨fuel + 1, s₁, by rw [Timers.sweep_succ, hturn]; exact h⟩

theorem sweep_ends (hcbs : NoCancel cbs) (hnow : now ∈ nows) {olds : List (Timer κ)} :
    ∀ {s : Timers κ} {done news : List (Timer κ)}, s.wheel.Books →
      KeepsAhead cbs nows s.wheel → s.wheel.lastTick = now →
      s.wheel.bucket = done ++ (olds ++ news) → (∀ t ∈ news, 0 < t.rounds) →
        ∃ fuel s', s.sweep cbs now fuel ((olds ++ news).head?.map (·.id)) = .ok s' := by
  induction olds with
  | nil => exact fun hw _ _ hb hr => ⟨_, sweep_counts hw hb hr⟩
  | cons t olds ih =>
    intro s done news hw hk hlast hb hr
    have hb' : s.wheel.bucket = done ++ t :: (olds ++ news) := hb
    have hturn : s.turn cbs now t.id = .ok (_, _) := Timers.turn_eq hw hb'
    by_cases hpos : 0 < t.rounds
    · rw [if_pos hpos] at hturn
      exact sweep_of_turn hturn (ih (Timers.turn_books hw hturn) (hk.turn hw hnow hturn) hlast
        (bucket_counted hw done t (olds ++ news)) hr)
    · rw [if_neg hpos] at hturn
      refine sweep_of_turn hturn ?_
      have hf := TimerWheel.calls_sameFrame (Timers.firing cbs now s.ran.length t) s.wheel
      obtain ⟨added, hslot, hadded⟩ := TimerWheel.calls_slot hw
        (Timers.firing cbs now s.ran.length t) s.wheel.currentSlot
      cases hhead : (olds ++ news).head? with
      | none => exact ⟨0, _, by rw [Option.map_none, Timers.sweep]⟩
      | some next =>
        have hnews : ∀ u ∈ news ++ added, 0 < u.rounds := by
          intro u hu
          rcases List.mem_append.mp hu with hu | hu
          · exact hr u hu
          · refine hk.placed hw hnow hlast
              (TimerWheel.mem_pending_iff.mpr ⟨s.wheel.currentSlot, ?_⟩) (hadded u hu)
            rw [← TimerWheel.bucket_eq, hb]
            simp
        have hkeep : (s.wheel.slot s.wheel.currentSlot).filter
            (·.id ∉ TimerWheel.cancels (Timers.firing cbs now s.ran.length t)) =
              done ++ (olds ++ news) := by
          have hne := hw.inv.ne_of_split hb'
          rw [← TimerWheel.bucket_eq, hb', Timers.cancels_firing, hcbs, List.filter_append,
            List.filter_cons_of_neg (by simp),
            List.filter_eq_self.mpr fun u hu => by simpa using hne u (List.mem_append_left _ hu),
            List.filter_eq_self.mpr fun u hu => by simpa using hne u (List.mem_append_right _ hu)]
        have hbucket : ((Timers.firing cbs now s.ran.length t).foldl TimerWheel.call
            s.wheel).bucket = done ++ (olds ++ (news ++ added)) := by
          rw [TimerWheel.bucket_eq, hf.currentSlot, hslot, hkeep]
          simp
        have hsame : (olds ++ (news ++ added)).head? = some next := by
          rw [← List.append_assoc, List.head?_append, hhead]
          rfl
        rw [← hsame]
        exact ih (Timers.turn_books hw hturn) (hk.turn hw hnow hturn)
          (hf.lastTick.trans hlast) hbucket hnews

/-- **Advances go through** where everything that is added lands ahead. -/
theorem KeepsAhead.advances (hcbs : NoCancel cbs) (hw : s.wheel.Books)
    (hk : KeepsAhead cbs nows s.wheel) : ∃ s', Timers.Advances cbs nows s s' := by
  induction nows generalizing s with
  | nil => exact ⟨s, Timers.advances_nil.mpr rfl⟩
  | cons now nows ih =>
    have hw₀ := Timers.handed_books (Timers.ticked_books hw now)
    have hk₀ : KeepsAhead cbs (now :: nows) (s.ticked now).handed.wheel := ⟨hk.adds, hk.pending⟩
    have hb₀ : (s.ticked now).handed.wheel.bucket =
        [] ++ ((s.ticked now).handed.wheel.bucket ++ []) := (List.append_nil _).symm
    obtain ⟨fuel, s₁, h⟩ := sweep_ends hcbs List.mem_cons_self hw₀ hk₀ rfl hb₀ (by simp)
    rw [List.append_nil] at h
    have hkept : s₁.wheel.Books ∧ KeepsAhead cbs (now :: nows) s₁.wheel := by
      refine Timers.sweep_rule
        (I := fun s _ => s.wheel.Books ∧ KeepsAhead cbs (now :: nows) s.wheel) ?_ ⟨hw₀, hk₀⟩ h
      intro s s' it it' hI hturn
      exact ⟨Timers.turn_books hI.1 hturn, hI.2.turn hI.1 List.mem_cons_self hturn⟩
    obtain ⟨s', h'⟩ := ih hkept.1
      ⟨fun n callback c hc a ha now' hnow' =>
          hkept.2.adds n callback c hc a ha now' (List.mem_cons_of_mem _ hnow'),
        fun t ht hpos now' hnow' =>
          hkept.2.pending t ht hpos now' (List.mem_cons_of_mem _ hnow')⟩
    exact ⟨s', Timers.advances_cons.mpr ⟨s₁, ⟨fuel, h⟩, h'⟩⟩

end Turn

end Hound.Reactor
