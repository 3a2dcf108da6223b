import Hound.Reactor.SweepEnds

/-!
# When a timer fires

A timer of a slot is so many advances from firing: those until the hand comes to the slot, and
a whole turn of the wheel for each of its rounds (`TimerWheel.remaining`). Every advance takes
one of them away (`remaining_advance`), so it fires on the one that takes the last
(`firesOn_iff`). `fires_on_time_iff` holds this against the delay the timer was added with:
a delay of whole turns of the wheel is given a round too many, and a wheel whose turn overflows
an `int` gives any number of them.
-/

namespace Hound.Reactor

open Hound.Lib

variable {κ : Type}

/-- The advances until a timer `t` of slot `i` fires. -/
def TimerWheel.remaining (w : TimerWheel κ) (i : Nat) (t : Timer κ) : Nat :=
  ahead w.slotCount w.currentSlot i + w.slotCount * t.rounds.toNat

section Advance

variable {cbs : Callbacks κ} {now : Timestamp} {s s' : Timers κ} {g : Sweep κ} {i : Nat}
  {t : Timer κ}

theorem mem_handed (ht : t ∈ s.wheel.slot i)
    (hi : i = (s.wheel.currentSlot + 1) % s.wheel.slotCount) (now : Timestamp) :
    t ∈ (s.ticked now).handed.wheel.bucket := by
  subst hi
  exact ht

theorem remaining_eq_one (hw : s.wheel.Books) (ht : t ∈ s.wheel.slot i)
    (h : s.wheel.remaining i t = 1) :
    i = (s.wheel.currentSlot + 1) % s.wheel.slotCount ∧ t.rounds ≤ 0 := by
  have hpos : 0 < ahead s.wheel.slotCount s.wheel.currentSlot i := ahead_pos hw.hand
  rw [TimerWheel.remaining] at h
  constructor
  · by_contra hne
    have hstep := ahead_step hw.hand (TimerWheel.slot_lt hw.inv ht) hne
    have hpos' : 0 < ahead s.wheel.slotCount
        ((s.wheel.currentSlot + 1) % s.wheel.slotCount) i := ahead_pos (Nat.mod_lt _ hw.inv.slots)
    omega
  · have hzero : s.wheel.slotCount * t.rounds.toNat = 0 := by omega
    have := (Nat.mul_eq_zero.mp hzero).resolve_left (Nat.pos_iff_ne_zero.mp hw.inv.slots)
    omega

/-- A sweep on the way fires a timer only if it was one advance from firing. -/
theorem remaining_of_fired (hw : s.wheel.Books) (hg : Calm (s.ticked now).handed g)
    (ht : t ∈ s.wheel.slot i) {u : Timer κ} (hu : u ∈ g.fired (s.ticked now).handed)
    (hid : u.id = t.id) : s.wheel.remaining i t = 1 := by
  have hgone := hid ▸ (hg.inv.fired u hu).2
  have hi : i = (s.wheel.currentSlot + 1) % s.wheel.slotCount := by
    by_contra hne
    exact hgone t (TimerWheel.mem_pending_iff.mpr ⟨i, hg.other ht hne⟩) rfl
  have hr : t.rounds ≤ 0 := by
    by_contra hpos
    have hmem := mem_handed ht hi now
    obtain ⟨v, hv, hvid, -⟩ := hg.waits hmem (Int.not_le.mp hpos)
    exact hgone v (TimerWheel.mem_pending_iff.mpr ⟨_, hv⟩) hvid
  rw [TimerWheel.remaining, hi, ahead_succ_mod hw.hand, Int.toNat_of_nonpos hr, Nat.mul_zero]

/-- **An advance takes one away**, or fires the timer if that was the last. -/
theorem remaining_advance (hcbs : NoCancel cbs) (hw : s.wheel.Books) (ht : t ∈ s.wheel.slot i)
    {fuel : Nat} (h : (s.ticked now).advance cbs now fuel = .ok s') :
    (s.wheel.remaining i t = 1 ∧ t ∈ s.firedSince s') ∨
      ((∃ t' ∈ s'.wheel.slot i, t'.id = t.id ∧
        s'.wheel.remaining i t' + 1 = s.wheel.remaining i t) ∧
          ∀ u ∈ s.firedSince s', u.id ≠ t.id) := by
  obtain ⟨turns, g, hrun, rfl, hend⟩ := run_of_sweep h
  have hw₀ := Timers.handed_books (Timers.ticked_books hw now)
  have hg := Calm.run hcbs hw₀ hrun
  have hcur : g.wheel.currentSlot = (s.wheel.currentSlot + 1) % s.wheel.slotCount :=
    hg.inv.frame.currentSlot
  have hcount : g.wheel.slotCount = s.wheel.slotCount := hg.inv.frame.slotCount
  have hunfired {t' : Timer κ} (ht' : t' ∈ g.wheel.slot i) (hid : t'.id = t.id) :
      ∀ u ∈ s.firedSince g.timers, u.id ≠ t.id := fun u hu hu' =>
    (hg.inv.fired u hu).2 t' (TimerWheel.mem_pending_iff.mpr ⟨i, ht'⟩) (hid.trans hu'.symm)
  simp only [TimerWheel.remaining, hcount, hcur]
  by_cases hi : i = (s.wheel.currentSlot + 1) % s.wheel.slotCount
  · have hmem := mem_handed ht hi now
    have hpos : (s.wheel.currentSlot + 1) % s.wheel.slotCount < s.wheel.slotCount :=
      Nat.mod_lt _ hw.inv.slots
    by_cases hr : t.rounds ≤ 0
    · refine .inl ⟨?_, hg.fired (.inl hend) hmem hr⟩
      rw [hi, ahead_succ_mod hw.hand, Int.toNat_of_nonpos hr]
      rfl
    · obtain ⟨u, hu, hid, hdec⟩ := hg.waits hmem (Int.not_le.mp hr)
      have hslot : u ∈ g.wheel.slot i := by
        rw [hi, ← hcur]
        exact hu
      refine .inr ⟨⟨u, hslot, hid, ?_⟩, hunfired hslot hid⟩
      · have hround : t.rounds.toNat = u.rounds.toNat + 1 := by
          rw [hdec hend]
          dsimp only
          omega
        rw [hi, ahead_succ_mod hw.hand, ahead_self hpos, hround, Nat.mul_succ]
        omega
  · refine .inr ⟨⟨t, hg.other ht hi, rfl, ?_⟩, hunfired (hg.other ht hi) rfl⟩
    rw [← ahead_step hw.hand (TimerWheel.slot_lt hw.inv ht) hi]
    omega

end Advance

/-! ## Runs of advances -/

section Runs

variable {cbs : Callbacks κ} {s s₁ : Timers κ} {i : Nat} {t : Timer κ} {nows : List Timestamp}

/-- **A run of advances** fires a timer once it is as long as what remains to it, and leaves it
that much nearer to firing before. -/
theorem remaining_advances (hcbs : NoCancel cbs) (hw : s.wheel.Books) (ht : t ∈ s.wheel.slot i)
    (h : Timers.Advances cbs nows s s₁) :
    (s.wheel.remaining i t ≤ nows.length ∧ ∃ u ∈ s.firedSince s₁, u.id = t.id) ∨
      ((∃ t' ∈ s₁.wheel.slot i, t'.id = t.id ∧
        s₁.wheel.remaining i t' + nows.length = s.wheel.remaining i t) ∧
          ∀ u ∈ s.firedSince s₁, u.id ≠ t.id) := by
  induction nows generalizing s t with
  | nil =>
    obtain rfl := Timers.advances_nil.mp h
    exact .inr ⟨⟨t, ht, rfl, rfl⟩, by simp [Timers.firedSince]⟩
  | cons now nows ih =>
    obtain ⟨s₂, ⟨fuel, h1⟩, h2⟩ := Timers.advances_cons.mp h
    obtain ⟨hw₂, hran₂⟩ := Timers.advance_books hw h1
    rw [Timers.firedSince_trans hran₂ (Timers.advances_books hw₂ h2).2, List.length_cons]
    rcases remaining_advance hcbs hw ht h1 with ⟨hone, hfired⟩ | ⟨⟨t', ht', hid, hrem⟩, hno⟩
    · exact .inl ⟨by omega, t, List.mem_append_left _ hfired, rfl⟩
    · rcases ih hw₂ ht' h2 with ⟨hle, u, hu, hu'⟩ | ⟨⟨t'', ht'', hid', hrem'⟩, hno'⟩
      · exact .inl ⟨by omega, u, List.mem_append_right _ hu, hu'.trans hid⟩
      · refine .inr ⟨⟨t'', ht'', hid'.trans hid, by omega⟩, fun u hu => ?_⟩
        exact (List.mem_append.mp hu).elim (hno u) (hid ▸ hno' u)

/-- After advances at the times `before`, the one at `now` fires the timer for the first time. -/
def FiresOn (cbs : Callbacks κ) (before : List Timestamp) (now : Timestamp) (s : Timers κ)
    (timerId : Int) : Prop :=
  ∃ s₁, Timers.Advances cbs before s s₁ ∧ (∀ u ∈ s.firedSince s₁, u.id ≠ timerId) ∧
    ∃ turns g, (sweepMachine cbs now (s₁.ticked now).handed).run turns = some g ∧
      ∃ u ∈ g.fired (s₁.ticked now).handed, u.id = timerId

/-- **A timer fires on the advance that takes the last of what remains.** -/
theorem firesOn_iff (hcbs : NoCancel cbs) (hw : s.wheel.Books) (ht : t ∈ s.wheel.slot i)
    (h : Timers.Advances cbs nows s s₁) (now : Timestamp) :
    FiresOn cbs nows now s t.id ↔ nows.length + 1 = s.wheel.remaining i t := by
  constructor
  · rintro ⟨s₂, hadv, hno, turns, g, hrun, u, hu, hu'⟩
    have hw₂ := (Timers.advances_books hw hadv).1
    have hg := Calm.run hcbs (Timers.handed_books (Timers.ticked_books hw₂ now)) hrun
    rcases remaining_advances hcbs hw ht hadv with ⟨-, v, hv, hv'⟩ | ⟨⟨t', ht', hid, hrem⟩, -⟩
    · exact absurd hv' (hno v hv)
    · have := remaining_of_fired hw₂ hg ht' hu (hu'.trans hid.symm)
      omega
  · intro heq
    have hw₁ := (Timers.advances_books hw h).1
    rcases remaining_advances hcbs hw ht h with ⟨hle, -⟩ | ⟨⟨t', ht', hid, hrem⟩, hno⟩
    · omega
    · have hone : s₁.wheel.remaining i t' = 1 := by omega
      have hw₀ := Timers.handed_books (Timers.ticked_books hw₁ now)
      obtain ⟨turns, g, hrun, hover⟩ := Calm.exists_run hcbs hw₀ _
      obtain ⟨hi, hr⟩ := remaining_eq_one hw₁ ht' hone
      exact ⟨s₁, h, hno, turns, g, hrun, t',
        (Calm.run hcbs hw₀ hrun).fired hover (mem_handed ht' hi now) hr, hid⟩

end Runs

/-! ## The delay asked for -/

theorem toInt_toNat_lt {n : Nat} (h : 2 ^ 31 ≤ n) : (toInt n).toNat + 1 < n := by
  rw [toInt, Int.bmod_def]
  omega

theorem delay_iff {n : Nat} (hn : 0 < n) (d : Nat) :
    (if d % n = 0 then n else d % n) + n * (toInt (d / n : Nat)).toNat = max 1 d ↔
      d / n < 2 ^ 31 ∧ (d % n ≠ 0 ∨ (d = 0 ∧ n = 1)) := by
  have hdiv := Nat.div_add_mod d n
  rcases Nat.lt_or_ge (d / n) (2 ^ 31) with hlt | hge
  · rw [toInt_eq hlt, Int.toNat_natCast]
    split
    · next hzero =>
      rcases Nat.eq_zero_or_pos d with rfl | hpos
      · simp
      · omega
    · next hne => omega
  · -- The rounds wrap: the timer has fewer left than its delay needs.
    have hfew := Nat.mul_lt_mul_of_pos_left (toInt_toNat_lt hge) hn
    rw [Nat.mul_succ] at hfew
    have hpos : 0 < d := Nat.pos_of_div_pos (Nat.lt_of_lt_of_le (by decide) hge)
    split <;> omega

theorem turns_iff {n : Nat} (hn : 0 < n) {d turns : Nat} :
    (if d % n = 0 then n else d % n) + n * turns = max 1 d ↔
      turns = (d - 1) / n ∧ (d ≠ 0 ∨ n = 1) := by
  rcases Nat.eq_zero_or_pos d with rfl | hpos
  · have hzero : (0 - 1) / n = 0 := by simp
    rw [hzero]
    rcases Nat.eq_zero_or_pos turns with rfl | hturns
    · simp
    · have := Nat.le_mul_of_pos_right n hturns
      have hne : ¬ turns = 0 := by omega
      simp only [Nat.zero_mod, if_pos, hne, false_and, iff_false]
      omega
  · -- the slots that the hand goes beyond whole turns
    have hdiv := Nat.div_add_mod (d - 1) n
    have hlt := Nat.mod_lt (d - 1) hn
    have hslots : (if d % n = 0 then n else d % n) = (d - 1) % n + 1 := by
      have hmod : d % n = ((d - 1) % n + 1) % n := by
        rw [Nat.mod_add_mod, Nat.sub_add_cancel hpos]
      by_cases hlast : (d - 1) % n + 1 = n
      · rw [hmod, hlast, Nat.mod_self, if_pos rfl]
      · have hsmall : (d - 1) % n + 1 < n := by omega
        rw [Nat.mod_eq_of_lt hsmall] at hmod
        rw [hmod, if_neg (Nat.succ_ne_zero _)]
    have hmax : max 1 d = d := Nat.max_eq_right hpos
    rw [hslots, hmax, and_iff_left (.inl (Nat.pos_iff_ne_zero.mp hpos)),
      ← Nat.mul_right_inj (Nat.pos_iff_ne_zero.mp hn) (b := turns)]
    omega

theorem TimerWheel.added_mem {w : TimerWheel κ} (hw : w.Books) (when : Timestamp)
    (interval : Seconds) (callback : κ) : w.added when interval callback ∈
      (w.addRepeating when interval callback).slot (w.slotFor when) := by
  rw [slot_addRepeating hw.inv, if_pos rfl]
  exact List.mem_append_right _ (List.mem_singleton_self _)

theorem TimerWheel.remaining_added {w : TimerWheel κ} (hw : w.Books) (when : Timestamp)
    (interval : Seconds) (callback : κ) {delta : Nat}
    (hdelta : delta = (when.diffMs w.lastTick).toNat) :
    (w.addRepeating when interval callback).remaining (w.slotFor when)
        (w.added when interval callback) =
      (if delta / w.tickMs % w.slotCount = 0 then w.slotCount
        else delta / w.tickMs % w.slotCount) + w.slotCount * (w.roundsFor delta).toNat := by
  have hslot : w.slotFor when = (w.currentSlot + delta / w.tickMs) % w.slotCount := by
    rw [slotFor, hdelta]
  have hrounds : (w.added when interval callback).rounds = w.roundsFor delta := by
    rw [hdelta]
    simp only [added, deltaMs]
  rw [remaining, hrounds, hslot]
  change ahead w.slotCount w.currentSlot ((w.currentSlot + delta / w.tickMs) % w.slotCount) +
    w.slotCount * _ = _
  rw [ahead_add_mod hw.hand]

/-- A wheel of `n` slots keeps a delay of `delta` milliseconds. Where the product in `insert_timer`
overflows, the quotient by what is left of it has to come out right by accident. -/
def OnTime (tickMs n delta : Nat) : Prop :=
  if tickMs * n < 2 ^ 31 then
    delta / tickMs / n < 2 ^ 31 ∧ (delta / tickMs % n ≠ 0 ∨ (delta / tickMs = 0 ∧ n = 1))
  else
    toInt (tickMs * n : Nat) ≠ 0 ∧
      (toInt ((delta : Int).tdiv (toInt (tickMs * n : Nat)))).toNat = (delta / tickMs - 1) / n ∧
      (delta / tickMs ≠ 0 ∨ n = 1)

instance (tickMs n delta : Nat) : Decidable (OnTime tickMs n delta) :=
  inferInstanceAs (Decidable (ite _ _ _))

theorem onTime_iff {w : TimerWheel κ} (htick : 0 < w.tickMs) (hslots : 0 < w.slotCount)
    (delta : Nat) :
    (w.turnMs ≠ 0 ∧ (if delta / w.tickMs % w.slotCount = 0 then w.slotCount
        else delta / w.tickMs % w.slotCount) + w.slotCount * (w.roundsFor delta).toNat =
      max 1 (delta / w.tickMs)) ↔ OnTime w.tickMs w.slotCount delta := by
  unfold OnTime
  by_cases hfits : w.tickMs * w.slotCount < 2 ^ 31
  · have hpos : w.turnMs ≠ 0 := by
      have := Nat.mul_pos htick hslots
      rw [TimerWheel.turnMs, toInt_eq hfits]
      omega
    rw [if_pos hfits, and_iff_right hpos, TimerWheel.roundsFor_eq hfits,
      ← Nat.div_div_eq_div_mul, delay_iff hslots]
  · rw [if_neg hfits, turns_iff hslots]
    rfl

/-- **When a timer fires on time.** Added with a delay of `delta` ms, `d` ticks, to a wheel of `n`
slots, it fires on the `max 1 d`-th advance, and not before, if and only if `n` does not divide
`d` (or the wheel has one slot and `d` is 0) and neither the rounds nor the turn of the wheel in
milliseconds overflow an `int`, or do so by accident in the right way (`OnTime`); the callbacks may
add timers as they like, as long as the advances before come to an end, which they do where
what is added lands ahead. -/
theorem fires_on_time_iff {cbs : Callbacks κ} (hcbs : NoCancel cbs) {s : Timers κ}
    (hw : s.wheel.Books) (htick : 0 < s.wheel.tickMs) (when : Timestamp) (interval : Seconds)
    (callback : κ) {delta : Nat} (hdelta : delta = (when.diffMs s.wheel.lastTick).toNat)
    {s' : Timers κ} (hs' : s' = { s with wheel := s.wheel.addRepeating when interval callback })
    {before : List Timestamp} (hbefore : before.length + 1 = max 1 (delta / s.wheel.tickMs))
    (now : Timestamp) :
    (∀ s₁, Timers.Advances cbs before s' s₁ →
      (s.wheel.turnMs ≠ 0 ∧ FiresOn cbs before now s' s.wheel.nextTimerId ↔
        OnTime s.wheel.tickMs s.wheel.slotCount delta)) ∧
      (KeepsAhead cbs before s'.wheel → ∃ s₁, Timers.Advances cbs before s' s₁) := by
  subst hs'
  have hw' := hw.addRepeating when interval callback
  refine ⟨fun s₁ h => ?_, fun hk => hk.advances hcbs hw'⟩
  rw [← onTime_iff htick hw.inv.slots delta,
    ← TimerWheel.remaining_added hw when interval callback hdelta, ← hbefore]
  refine and_congr_right fun _ => (Iff.trans ?_ eq_comm)
  exact firesOn_iff hcbs hw' (TimerWheel.added_mem hw when interval callback) h now

def noCalls : Callbacks κ := fun _ _ => []

/-- The default wheel of an `EventLoop`, with one timer. -/
def oneTimer (when : Timestamp) : Timers Unit := ⟨(TimerWheel.new 10 6000 ⟨0⟩).addTimer when (), []⟩

theorem noCalls_noCancel : NoCancel (noCalls : Callbacks κ) := fun _ _ => rfl

/-- A timer 25 ms ahead, against the second advance. -/
theorem fires_on_time_iff_25 :
    (∀ s₁, Timers.Advances noCalls [⟨10000⟩] (oneTimer ⟨25000⟩) s₁ →
      ((TimerWheel.new 10 6000 ⟨0⟩ : TimerWheel Unit).turnMs ≠ 0 ∧
        FiresOn noCalls [⟨10000⟩] ⟨20000⟩ (oneTimer ⟨25000⟩) 1 ↔ OnTime 10 6000 25)) ∧
      (KeepsAhead noCalls [⟨10000⟩] (oneTimer ⟨25000⟩).wheel →
        ∃ s₁, Timers.Advances noCalls [⟨10000⟩] (oneTimer ⟨25000⟩) s₁) :=
  fires_on_time_iff noCalls_noCancel (s := ⟨.new 10 6000 ⟨0⟩, []⟩) (.new (by decide) 10 ⟨0⟩)
    (by decide) ⟨25000⟩ ⟨false, 0⟩ () rfl rfl rfl ⟨20000⟩

/-- 3001 slots of 1000 s on a wheel of 3000: the turn of the wheel overflows. -/
example : OnTime 10 6000 25 ∧ ¬ OnTime 10 6000 60000 ∧ ¬ OnTime 1000000 3000 3001000000 := by decide

/-- A timer that is already due does not fire on the next advance. -/
theorem due_waits_a_turn : ¬ FiresOn noCalls [] ⟨10000⟩ (oneTimer ⟨0⟩) 1 := by
  have hw : (TimerWheel.new 10 6000 ⟨0⟩ : TimerWheel Unit).Books := .new (by decide) 10 ⟨0⟩
  have hmem := TimerWheel.added_mem hw ⟨0⟩ ⟨false, 0⟩ ()
  have hiff := firesOn_iff noCalls_noCancel (s := oneTimer ⟨0⟩) (hw.addRepeating ..) hmem
    (Timers.advances_nil.mpr rfl) ⟨10000⟩
  exact fun h => absurd (hiff.mp h) (by decide)

end Hound.Reactor
