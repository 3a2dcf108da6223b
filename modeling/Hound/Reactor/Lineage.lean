import Hound.Reactor.Countdown

/-!
# A repeating timer under its ids

Each time a repeating timer fires, the loop of `tick` adds it again under a new id.
`lineMachine` runs the loop and keeps, in `line`, the ids under which the timer of one call of
`add_repeating` was added. The caller holds the first of them, so `cancel` stops the timer only
while that one is its id: `stopped_iff`.
-/

namespace Hound.Reactor

open Hound.Lib

variable {κ : Type}

/-- The loop of `tick` at work, and the ids of the timers that stem from one call. -/
structure Lineage (κ : Type) where
  timers : Timers κ
  it : Option Int := none
  now : Timestamp
  line : List Int

inductive LoopOp where
  /-- The hand moves on, in a tick at `now`. -/
  | advance (now : Timestamp)
  /-- One turn of the loop over the bucket. -/
  | turn

def times (ops : List LoopOp) : List Timestamp :=
  ops.filterMap fun
    | .advance now => some now
    | .turn => none

namespace Lineage

abbrev wheel (s : Lineage κ) : TimerWheel κ := s.timers.wheel

/-- The id under which the next turn adds a timer of the line again, if it does. -/
def heir (cbs : Callbacks κ) (s : Lineage κ) : List Int :=
  match s.timers.due s.it with
  | some t =>
    if t.id ∈ s.line ∧ t.interval.positive then
      [((cbs s.timers.ran.length t.callback).foldl TimerWheel.call
        (s.wheel.cancel t.id)).nextTimerId]
    else []
  | none => []

/-- `cancel first` leaves no timer of the line pending. -/
def Stopped (s : Lineage κ) (first : Int) : Prop :=
  ∀ t ∈ (s.wheel.cancel first).pending, t.id ∉ s.line

end Lineage

def lineMachine (cbs : Callbacks κ) (s₁ : Timers κ) (first : Int) : Machine (Lineage κ) LoopOp where
  init := { timers := s₁, now := s₁.wheel.lastTick, line := [first] }
  step s
    | .advance now =>
      if s.it = none then
        some { s with
          timers := (s.timers.ticked now).handed
          it := (s.timers.ticked now).handed.wheel.bucket.head?.map (·.id)
          now }
      else none
    | .turn =>
      match s.it with
      | none => none
      | some it =>
        match s.timers.turn cbs s.now it with
        | .ok (timers, it) => some { s with timers, it, line := s.line ++ s.heir cbs }
        | .error _ => none

/-! ## The invariant -/

structure Lineage.Inv (s₁ : Timers κ) (first : Int) (interval : Seconds) (s : Lineage κ) :
    Prop where
  books : s.wheel.Books
  ran : s₁.ran <+: s.timers.ran
  fired : ∀ u ∈ s₁.firedSince s.timers, s.wheel.Gone u.id
  unfired : (∀ u ∈ s₁.firedSince s.timers, u.id ≠ first) → s.line = [first]
  line : ∀ id ∈ s.line, id < s.wheel.nextTimerId
  repeats : ∀ t ∈ s.wheel.pending, t.id ∈ s.line → t.interval = interval
  single : interval.positive = false → s.line = [first]

def Lineage.Lives (s : Lineage κ) : Prop := ∃ t ∈ s.wheel.pending, t.id ∈ s.line

section Steps

variable {cbs : Callbacks κ} {s₁ : Timers κ} {first : Int} {interval : Seconds}
  {s s' : Lineage κ}

theorem lineMachine_step {op : LoopOp} (h : (lineMachine cbs s₁ first).step s op = some s') :
    (∃ now, op = .advance now ∧ s.it = none ∧ s' = { s with
      timers := (s.timers.ticked now).handed
      it := (s.timers.ticked now).handed.wheel.bucket.head?.map (·.id)
      now }) ∨
    (op = .turn ∧ ∃ it, s.it = some it ∧ s.timers.turn cbs s.now it = .ok (s'.timers, s'.it) ∧
      s'.now = s.now ∧ s'.line = s.line ++ s.heir cbs) := by
  cases op with
  | advance now =>
    simp only [lineMachine, Option.ite_none_right_eq_some, Option.some.injEq] at h
    exact .inl ⟨now, rfl, h.1, h.2.symm⟩
  | turn =>
    simp only [lineMachine] at h
    split at h
    · cases h
    · next it hit =>
      split at h
      · next hturn =>
        cases h
        exact .inr ⟨rfl, it, hit, hturn, rfl, rfl⟩
      · cases h

/-- A turn counts a timer down, and the line is as it was, or it fires. -/
theorem turn_line (hw : s.wheel.Books) {it : Int} (hit : s.it = some it)
    (h : s.timers.turn cbs s.now it = .ok (s'.timers, s'.it))
    (hline : s'.line = s.line ++ s.heir cbs) :
    (∃ b, b.map (·.id) = s.wheel.bucket.map (·.id) ∧
      (∀ u ∈ (s.wheel.setBucket b).pending,
        ∃ v ∈ s.wheel.pending, v.id = u.id ∧ v.interval = u.interval) ∧
      s'.timers = { s.timers with wheel := s.wheel.setBucket b } ∧ s'.line = s.line) ∨
    (∃ t ∈ s.wheel.pending,
      s'.timers = ⟨(Timers.firing cbs s.now s.timers.ran.length t).foldl TimerWheel.call s.wheel,
        s.timers.ran ++ [⟨t, s.now⟩]⟩ ∧
      s'.line = s.line ++ if t.id ∈ s.line ∧ t.interval.positive then
        [((cbs s.timers.ran.length t.callback).foldl TimerWheel.call
          (s.wheel.cancel t.id)).nextTimerId] else []) := by
  obtain ⟨done, t, rest, hb, rfl, -, hcase⟩ := Timers.turn_cases hw h
  have ht : t ∈ s.wheel.pending := TimerWheel.mem_pending_iff.mpr
    ⟨s.wheel.currentSlot, by rw [← TimerWheel.bucket_eq, hb]; simp⟩
  rw [Lineage.heir, hit, Timers.due_eq hw hb] at hline
  rcases hcase with ⟨hpos, htimers⟩ | ⟨hdue, htimers⟩
  · rw [if_neg (Int.not_le.mpr hpos), List.append_nil] at hline
    refine .inl ⟨_, by simp [hb], fun u hu => ?_, htimers, hline⟩
    rcases TimerWheel.pending_counted hw hb hu with hu | ⟨ht, rfl⟩
    · exact ⟨u, hu, rfl, rfl⟩
    · exact ⟨t, ht, rfl, rfl⟩
  · rw [if_pos hdue] at hline
    exact .inr ⟨t, ht, htimers, hline⟩

theorem Lineage.Inv.counts (hs : s.Inv s₁ first interval) {b : List (Timer κ)}
    (hids : b.map (·.id) = s.wheel.bucket.map (·.id))
    (hb : ∀ u ∈ (s.wheel.setBucket b).pending,
      ∃ v ∈ s.wheel.pending, v.id = u.id ∧ v.interval = u.interval)
    (htimers : s'.timers = { s.timers with wheel := s.wheel.setBucket b })
    (hline : s'.line = s.line) : s'.Inv s₁ first interval := by
  have hwheel : s'.wheel = s.wheel.setBucket b := congrArg (·.wheel) htimers
  refine ⟨hwheel ▸ hs.books.setBucket hids, ?_, ?_, ?_, ?_, ?_, hline ▸ hs.single⟩
  · rw [htimers]
    exact hs.ran
  · rw [htimers, hwheel]
    exact fun u hu => (hs.fired u hu).setBucket hs.books hids
  · rw [htimers, hline]
    exact hs.unfired
  · rw [hwheel, hline]
    exact hs.line
  · intro t ht hid
    rw [hwheel] at ht
    obtain ⟨v, hv, hv', hvi⟩ := hb t ht
    exact hvi ▸ hs.repeats v hv (hv' ▸ hline ▸ hid)

theorem Lineage.Inv.fires (hs : s.Inv s₁ first interval) {t : Timer κ}
    (ht : t ∈ s.wheel.pending)
    (htimers : s'.timers =
      ⟨(Timers.firing cbs s.now s.timers.ran.length t).foldl TimerWheel.call s.wheel,
        s.timers.ran ++ [⟨t, s.now⟩]⟩)
    (hline : s'.line = s.line ++ if t.id ∈ s.line ∧ t.interval.positive then
      [((cbs s.timers.ran.length t.callback).foldl TimerWheel.call
        (s.wheel.cancel t.id)).nextTimerId] else []) : s'.Inv s₁ first interval := by
  have hwheel : s'.wheel =
      (Timers.firing cbs s.now s.timers.ran.length t).foldl TimerWheel.call s.wheel :=
    congrArg (·.wheel) htimers
  have hfired : s₁.firedSince s'.timers = s₁.firedSince s.timers ++ [t] := by
    rw [htimers]
    exact Timers.firedSince_concat hs.ran _ _
  have hnext : s.wheel.nextTimerId ≤ s'.wheel.nextTimerId :=
    hwheel ▸ TimerWheel.nextTimerId_calls_le _ _
  refine ⟨hwheel ▸ hs.books.calls _, ?_, ?_, ?_, ?_, ?_, ?_⟩
  · rw [htimers]
    exact hs.ran.trans (List.prefix_append _ _)
  · intro u hu
    rw [hwheel]
    rcases List.mem_append.mp (hfired ▸ hu) with hu | hu
    · exact (hs.fired u hu).calls hs.books _
    · obtain rfl := List.mem_singleton.mp hu
      exact Timers.firing_gone cbs s.now hs.books ht _
  · intro hno
    rw [hfired] at hno
    have hold := hs.unfired fun u hu => hno u (List.mem_append_left _ hu)
    have hne := hno t (List.mem_append_right _ (List.mem_singleton_self t))
    rw [hline, hold, if_neg (by simpa using fun hid => absurd hid hne)]
    rfl
  · intro id hid
    rw [hline, List.mem_append] at hid
    rcases hid with hid | hid
    · exact Int.lt_of_lt_of_le (hs.line id hid) hnext
    · split at hid
      · next hcond =>
        rw [List.mem_singleton.mp hid, hwheel, Timers.firing_eq]
        dsimp only
        rw [if_pos hcond.2]
        exact Int.lt_succ _
      · cases hid
  · intro u hu hid
    rw [hline, List.mem_append] at hid
    rw [hwheel] at hu
    rcases hid with hid | hid
    · rcases TimerWheel.mem_calls hs.books hu with ⟨hold, -⟩ | ⟨i, hnew⟩
      · exact hs.repeats u hold hid
      · exact absurd (hs.line u.id hid) (Int.not_lt.mpr hnew.fresh)
    · split at hid
      · next hcond =>
        have hcalled := (hs.books.cancel t.id).calls (cbs s.timers.ran.length t.callback)
        rw [Timers.firing_eq] at hu
        dsimp only at hu
        rw [if_pos hcond.2] at hu
        rcases (TimerWheel.mem_pending_addRepeating hcalled.inv).mp hu with rfl | hu
        · exact hs.repeats t ht hcond.1
        · have := hcalled.inv.id_lt u hu
          exact absurd (List.mem_singleton.mp hid) (Int.ne_of_lt this)
      · cases hid
  · intro hpos
    have hold := hs.single hpos
    rw [hline, if_neg, List.append_nil, hold]
    rintro ⟨hid, ht'⟩
    rw [hs.repeats t ht hid, hpos] at ht'
    cases ht'

theorem lineMachine_kept : (lineMachine cbs s₁ first).Kept (Lineage.Inv s₁ first interval) := by
  intro s s' op hs h
  obtain ⟨now, rfl, -, rfl⟩ | ⟨rfl, it, hit, hturn, -, hline⟩ := lineMachine_step h
  · exact ⟨Timers.handed_books (Timers.ticked_books hs.books now), hs.ran, hs.fired, hs.unfired,
      hs.line, hs.repeats, hs.single⟩
  · obtain ⟨b, hids, hb, htimers, hline⟩ | ⟨t, ht, htimers, hline⟩ :=
      turn_line hs.books hit hturn hline
    · exact hs.counts hids hb htimers hline
    · exact hs.fires ht htimers hline

/-- `cancel` on the first id stops the timer unless it has fired and lives on. -/
theorem Lineage.Inv.stopped_cases (hs : s.Inv s₁ first interval) :
    s.Stopped first ↔ (∀ u ∈ s₁.firedSince s.timers, u.id ≠ first) ∨ ¬ s.Lives := by
  have hmem {t : Timer κ} : t ∈ (s.wheel.cancel first).pending ↔ _ :=
    TimerWheel.mem_pending_cancel hs.books.inv
  constructor
  · intro hstop
    by_cases hno : ∀ u ∈ s₁.firedSince s.timers, u.id ≠ first
    · exact .inl hno
    · push Not at hno
      obtain ⟨u, hu, rfl⟩ := hno
      refine .inr fun ⟨t, ht, hline⟩ => hstop t (hmem.mpr ⟨ht, ?_⟩) hline
      exact (hs.fired u hu).2 t ht
  · rintro (hno | hdead) t ht hline
    · rw [hs.unfired hno, List.mem_singleton] at hline
      exact (hmem.mp ht).2 hline
    · exact hdead ⟨t, (hmem.mp ht).1, hline⟩

/-! ## Callbacks that do not cancel -/

theorem Lineage.Inv.lives (hs : s.Inv s₁ first interval) (hcbs : NoCancel cbs)
    (hpos : interval.positive) (hlives : s.Lives) {op : LoopOp}
    (h : (lineMachine cbs s₁ first).step s op = some s') : s'.Lives := by
  obtain ⟨t, ht, hid⟩ := hlives
  obtain ⟨now, rfl, -, rfl⟩ | ⟨rfl, it, hit, hturn, -, hline⟩ := lineMachine_step h
  · exact ⟨t, ht, hid⟩
  · obtain ⟨b, hids, -, htimers, hline⟩ | ⟨f, hf, htimers, hline⟩ :=
      turn_line hs.books hit hturn hline
    · have hmem : t.id ∈ (s.wheel.setBucket b).pending.map (·.id) :=
        (TimerWheel.ids_setBucket hs.books hids).symm ▸ List.mem_map_of_mem ht
      obtain ⟨u, hu, hu'⟩ := List.mem_map.mp hmem
      refine ⟨u, ?_, hline ▸ hu' ▸ hid⟩
      rw [Lineage.wheel, htimers]
      exact hu
    · rw [Lineage.Lives, Lineage.wheel, htimers, hline]
      by_cases hft : t.id = f.id
      · -- The timer of the line fires: it is added again.
        have hfpos : f.interval.positive := by
          rw [hs.repeats f hf (hft ▸ hid)]
          exact hpos
        have hcalled := (hs.books.cancel f.id).calls (cbs s.timers.ran.length f.callback)
        rw [if_pos ⟨hft ▸ hid, hfpos⟩]
        dsimp only
        rw [Timers.firing_eq]
        dsimp only
        rw [if_pos hfpos]
        exact ⟨_, (TimerWheel.mem_pending_addRepeating hcalled.inv).mpr (.inl rfl),
          List.mem_append_right _ (List.mem_singleton_self _)⟩
      · obtain ⟨i, hi⟩ := TimerWheel.mem_pending_iff.mp ht
        have hnot : t.id ∉ TimerWheel.cancels (Timers.firing cbs s.now s.timers.ran.length f) := by
          rw [Timers.cancels_firing, hcbs]
          simpa using hft
        obtain ⟨u, hu, hu'⟩ := (TimerWheel.mem_slot_calls_iff hs.books hi).mpr hnot
        exact ⟨u, TimerWheel.mem_pending_iff.mpr ⟨i, hu⟩, List.mem_append_left _ (hu' ▸ hid)⟩

theorem advances_of_runFrom {ops : List LoopOp} {g : Lineage κ}
    (h : (lineMachine cbs s₁ first).runFrom g ops = some s) (hend : s.it = none) :
    ∃ s₂, (∃ fuel, g.timers.sweep cbs g.now fuel g.it = .ok s₂) ∧
      Timers.Advances cbs (times ops) s₂ s.timers := by
  induction ops generalizing g with
  | nil =>
    cases h
    exact ⟨s.timers, ⟨0, by rw [hend, Timers.sweep]⟩, Timers.advances_nil.mpr rfl⟩
  | cons op ops ih =>
    obtain ⟨g₁, h1, h2⟩ := Machine.runFrom_cons h
    obtain ⟨s₂, ⟨fuel, hsweep⟩, hadv⟩ := ih h2
    obtain ⟨now, rfl, hit, rfl⟩ | ⟨rfl, it, hit, hturn, hnow, -⟩ := lineMachine_step h1
    · refine ⟨g.timers, ⟨0, by rw [hit, Timers.sweep]⟩, ?_⟩
      exact Timers.advances_cons.mpr ⟨s₂, ⟨fuel, hsweep⟩, hadv⟩
    · refine ⟨s₂, ⟨fuel + 1, ?_⟩, hadv⟩
      rw [hit, Timers.sweep_succ, hturn, ← hnow]
      exact hsweep

theorem advances_of_run {ops : List LoopOp} (h : (lineMachine cbs s₁ first).run ops = some s)
    (hend : s.it = none) : Timers.Advances cbs (times ops) s₁ s.timers := by
  obtain ⟨s₂, ⟨fuel, hsweep⟩, hadv⟩ := advances_of_runFrom h hend
  have hstart : s₁.sweep cbs s₁.wheel.lastTick fuel none = .ok s₂ := hsweep
  rw [Timers.sweep] at hstart
  cases hstart
  exact hadv

end Steps

theorem Lineage.Inv.start {s₀ : Timers κ} (hw : s₀.wheel.Books) (when : Timestamp)
    (interval : Seconds) (callback : κ) :
    Lineage.Inv { s₀ with wheel := s₀.wheel.addRepeating when interval callback }
      s₀.wheel.nextTimerId interval
      { timers := { s₀ with wheel := s₀.wheel.addRepeating when interval callback }
        now := s₀.wheel.lastTick
        line := [s₀.wheel.nextTimerId] } where
  books := hw.addRepeating when interval callback
  ran := List.prefix_refl _
  fired := by simp [Timers.firedSince]
  unfired _ := rfl
  line id hid := by
    rw [List.mem_singleton.mp hid]
    exact Int.lt_succ _
  repeats t ht hid := by
    rcases (TimerWheel.mem_pending_addRepeating hw.inv).mp ht with rfl | ht
    · rfl
    · exact absurd (List.mem_singleton.mp hid) (Int.ne_of_lt (hw.inv.id_lt t ht))
  single _ := rfl

theorem unfired_iff {cbs : Callbacks κ} {s s₁ : Timers κ} {i : Nat} {t : Timer κ}
    {nows : List Timestamp} (hcbs : NoCancel cbs) (hw : s.wheel.Books)
    (ht : t ∈ s.wheel.slot i) (h : Timers.Advances cbs nows s s₁) :
    (∀ u ∈ s.firedSince s₁, u.id ≠ t.id) ↔ nows.length < s.wheel.remaining i t := by
  rcases remaining_advances hcbs hw ht h with ⟨hle, u, hu, hid⟩ | ⟨⟨t', ht', -, hrem⟩, hno⟩
  · exact iff_of_false (fun hno => hno u hu hid) (Nat.not_lt.mpr hle)
  · refine iff_of_true hno ?_
    have hpos : 0 < ahead s₁.wheel.slotCount s₁.wheel.currentSlot i :=
      ahead_pos (Timers.advances_books hw h).1.hand
    rw [TimerWheel.remaining] at hrem
    omega

/-- **`cancel` stops a repeating timer exactly until it fires.** After any turns of the loop, with
any callbacks, cancelling the id that `add_repeating` returned leaves no timer of the line
pending if and only if the timer has not fired yet or none was pending anyway. Where no
callback cancels, and after whole advances of the hand, that is as long as the advances are
fewer than those until its first firing, or for good if the timer does not repeat. -/
theorem stopped_iff {cbs : Callbacks κ} {s₀ : Timers κ} (hw : s₀.wheel.Books) (when : Timestamp)
    (interval : Seconds) (callback : κ) {s₁ : Timers κ}
    (hs₁ : s₁ = { s₀ with wheel := s₀.wheel.addRepeating when interval callback })
    {ops : List LoopOp} {s : Lineage κ}
    (h : (lineMachine cbs s₁ s₀.wheel.nextTimerId).run ops = some s) :
    (s.Stopped s₀.wheel.nextTimerId ↔
      (∀ u ∈ s₁.firedSince s.timers, u.id ≠ s₀.wheel.nextTimerId) ∨ ¬ s.Lives) ∧
    (NoCancel cbs → s.it = none →
      (s.Stopped s₀.wheel.nextTimerId ↔
        (times ops).length < s₁.wheel.remaining (s₀.wheel.slotFor when)
          (s₀.wheel.added when interval callback) ∨ interval.positive = false)) := by
  subst hs₁
  have hw₁ := hw.addRepeating when interval callback
  have hadded := TimerWheel.added_mem hw when interval callback
  have h0 := Lineage.Inv.start hw when interval callback
  have hs := Machine.invariant h0 lineMachine_kept h
  refine ⟨hs.stopped_cases, fun hcbs hend => ?_⟩
  have hcount : (∀ u ∈ Timers.firedSince ⟨_, s₀.ran⟩ s.timers, u.id ≠ s₀.wheel.nextTimerId) ↔ _ :=
    unfired_iff hcbs hw₁ hadded (advances_of_run h hend)
  rw [hs.stopped_cases, hcount]
  cases hpos : interval.positive with
  | true =>
    have hlives : s.Lives := by
      refine (Machine.invariant
        (I := fun g => Lineage.Inv ⟨s₀.wheel.addRepeating when interval callback, s₀.ran⟩
          s₀.wheel.nextTimerId interval g ∧ g.Lives) ⟨h0, ?_⟩ ?_ h).2
      · exact ⟨_, TimerWheel.mem_pending_iff.mpr ⟨_, hadded⟩, List.mem_singleton_self _⟩
      · exact fun hI hstep => ⟨lineMachine_kept hI.1 hstep, hI.1.lives hcbs hpos hI.2 hstep⟩
    simp [hlives]
  | false =>
    refine iff_of_true ?_ (.inr rfl)
    rw [← hcount, or_iff_not_imp_left]
    intro hfired ⟨t, ht, hid⟩
    push Not at hfired
    obtain ⟨u, hu, hu'⟩ := hfired
    rw [hs.single hpos, List.mem_singleton] at hid
    exact (hs.fired u hu).2 t ht (hid.trans hu'.symm)

/-- A wheel of four slots with one timer, which repeats every 20 ms. -/
def repeating : Timers Unit :=
  ⟨(TimerWheel.new 10 4 ⟨0⟩).addRepeating ⟨20000⟩ ⟨true, 20000⟩ (), []⟩

def oneAdvance : Lineage Unit :=
  { timers := (repeating.ticked ⟨10000⟩).handed, now := ⟨10000⟩, line := [1] }

theorem stopped_iff_oneAdvance :
    (oneAdvance.Stopped 1 ↔
      (∀ u ∈ repeating.firedSince oneAdvance.timers, u.id ≠ 1) ∨ ¬ oneAdvance.Lives) ∧
    (NoCancel (noCalls : Callbacks Unit) → oneAdvance.it = none →
      (oneAdvance.Stopped 1 ↔ (times [.advance ⟨10000⟩]).length <
        repeating.wheel.remaining ((TimerWheel.new 10 4 ⟨0⟩ : TimerWheel Unit).slotFor ⟨20000⟩)
          ((TimerWheel.new 10 4 ⟨0⟩).added ⟨20000⟩ ⟨true, 20000⟩ ()) ∨ true = false)) :=
  @stopped_iff Unit noCalls ⟨.new 10 4 ⟨0⟩, []⟩ (.new (by decide) 10 ⟨0⟩) ⟨20000⟩ ⟨true, 20000⟩ ()
    repeating rfl [.advance ⟨10000⟩] oneAdvance rfl

/-- After its first firing the timer goes on under the id 2, and cancelling 1 does nothing. -/
theorem fired_not_stopped : ∃ s, (lineMachine noCalls repeating 1).run
    [.advance ⟨10000⟩, .advance ⟨20000⟩, .turn] = some s ∧ ¬ s.Stopped 1 := by
  refine ⟨_, rfl, fun h => ?_⟩
  have hgone := h { id := 2, expiration := ⟨40000⟩, callback := (), interval := ⟨true, 20000⟩ }
  exact hgone (by decide) (by decide)

end Hound.Reactor
