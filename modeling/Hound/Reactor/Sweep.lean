import Hound.Lib.Machine
import Hound.Reactor.Turn

/-!
# Sweeping a bucket while callbacks change it

`sweepMachine` takes the turns of one sweep one by one and notes which pending timers the
callbacks cancelled. The iterator is saved across the callback, so the sweep is safe exactly
as long as no callback cancels the timer that stands behind its own (`safe_iff`).
-/

namespace Hound.Reactor

open Hound.Lib

variable {κ : Type}

/-! ## The machine -/

/-- A sweep under way: the iterator, the pending timers that callbacks have cancelled, and the
number of turns taken. -/
structure Sweep (κ : Type) where
  timers : Timers κ
  it : Option Int
  cancelled : List Int := []
  turns : Nat := 0

namespace Sweep

abbrev wheel (s : Sweep κ) : TimerWheel κ := s.timers.wheel

/-- The sweep of the bucket under the hand, about to begin. -/
def start (s : Timers κ) : Sweep κ := { timers := s, it := s.wheel.bucket.head?.map (·.id) }

abbrev due (s : Sweep κ) : Option (Timer κ) := s.timers.due s.it

variable (cbs : Callbacks κ) (now : Timestamp)

def asks (s : Sweep κ) : List (TimerCall κ) :=
  match s.due with
  | some t => cbs s.timers.ran.length t.callback
  | none => []

/-- The pending timers that the callback of the next turn cancels. -/
def strikes (s : Sweep κ) : List Int :=
  match s.due with
  | some t => (s.wheel.cancel t.id).struck (s.asks cbs)
  | none => []

def step (s : Sweep κ) : Option (Sweep κ) :=
  match s.it with
  | none => none
  | some it =>
    match s.timers.turn cbs now it with
    | .error _ => none
    | .ok (timers, it) =>
      some { timers, it, cancelled := s.cancelled ++ s.strikes cbs, turns := s.turns + 1 }

/-- The iterator is at the end or on a timer of the bucket. -/
def Alive (s : Sweep κ) : Prop := ∀ it, s.it = some it → ∃ t ∈ s.wheel.bucket, t.id = it

abbrev fired (s₀ : Timers κ) (s : Sweep κ) : List (Timer κ) := s₀.firedSince s.timers

end Sweep

def sweepMachine (cbs : Callbacks κ) (now : Timestamp) (s₀ : Timers κ) :
    Machine (Sweep κ) Unit where
  init := .start s₀
  step s _ := s.step cbs now

/-! ## The invariant -/

/-- `done` is behind the iterator, `olds` was there before the sweep and `news` was not. -/
structure Standing (s₀ : Timers κ) (s : Sweep κ) (done olds news : List (Timer κ)) : Prop where
  bucket : s.wheel.bucket = done ++ (olds ++ news)
  it : s.it = (olds ++ news).head?.map (·.id)
  turns : olds = [] ∨ olds.length + s.turns ≤ s₀.wheel.bucket.length
  old : ∀ t ∈ olds, t ∈ s₀.wheel.bucket
  new : ∀ t ∈ news, s₀.wheel.nextTimerId ≤ t.id
  settled : ∀ t ∈ s₀.wheel.bucket, t.id ∈ s.cancelled ∨ t ∈ olds ∨
    (0 < t.rounds ∧ { t with rounds := t.rounds - 1 } ∈ done) ∨ (t.rounds ≤ 0 ∧ t ∈ s.fired s₀)

structure Sweep.Inv (s₀ : Timers κ) (s : Sweep κ) : Prop where
  books : s.wheel.Books
  frame : s₀.wheel.SameFrame s.wheel
  ran : s₀.ran <+: s.timers.ran
  next : s₀.wheel.nextTimerId ≤ s.wheel.nextTimerId
  cancelled : ∀ id ∈ s.cancelled, s.wheel.Gone id
  fired : ∀ t ∈ s.fired s₀, s.wheel.Gone t.id
  once : ((s.fired s₀).map (·.id)).Nodup
  spared : ∀ t ∈ s.fired s₀, t.id ∉ s.cancelled
  due : ∀ t ∈ s.fired s₀, t.rounds ≤ 0 ∧
    (t ∈ s₀.wheel.bucket ∨ s₀.wheel.nextTimerId ≤ t.id)
  others : ∀ i ≠ s₀.wheel.currentSlot, ∀ t ∈ s₀.wheel.slot i,
    t.id ∈ s.cancelled ∨ t ∈ s.wheel.slot i
  stand : s.Alive → ∃ done olds news, Standing s₀ s done olds news

namespace Sweep

variable {cbs : Callbacks κ} {now : Timestamp} {s₀ : Timers κ} {s s' : Sweep κ}

theorem Inv.start (hw : s₀.wheel.Books) : (Sweep.start s₀).Inv s₀ where
  books := hw
  frame := .refl _
  ran := List.prefix_refl _
  next := Int.le_refl _
  cancelled := by simp [Sweep.start]
  fired := by simp [Sweep.start, Timers.firedSince]
  once := by simp [Sweep.start, Timers.firedSince]
  spared := by simp [Sweep.start, Timers.firedSince]
  due := by simp [Sweep.start, Timers.firedSince]
  others := fun i _ t ht => .inr ht
  stand := fun _ => ⟨[], s₀.wheel.bucket, [],
    { bucket := by simp [Sweep.start]
      it := by simp [Sweep.start]
      turns := .inr (Nat.le_refl _)
      old := fun _ ht => ht
      new := by simp
      settled := fun _ ht => .inr (.inl ht) }⟩

theorem start_alive (s₀ : Timers κ) : (Sweep.start s₀).Alive := by
  intro it hit
  obtain ⟨t, ht, rfl⟩ := Option.map_eq_some_iff.mp hit
  exact ⟨t, List.mem_of_head? ht, rfl⟩

theorem step_of_turn {it : Int} {it' : Option Int} {timers : Timers κ} (hit : s.it = some it)
    (hturn : s.timers.turn cbs now it = .ok (timers, it')) :
    s.step cbs now = some
      { timers, it := it', cancelled := s.cancelled ++ s.strikes cbs, turns := s.turns + 1 } := by
  rw [step, hit]
  simp only [hturn]

theorem step_alive (hs : s.Inv s₀) (h : s.step cbs now = some s') : s.it ≠ none ∧ s.Alive := by
  unfold step at h
  split at h
  · cases h
  · next it hit =>
    refine ⟨by simp [hit], fun it' hit' => ?_⟩
    rw [hit] at hit'
    cases hit'
    split at h
    · cases h
    · next hturn => exact (Timers.turn_isOk_iff hs.books).mp ⟨_, hturn⟩

/-- A step that counts `t` down, with `done` before it in the bucket and `rest` behind. -/
structure Counts (s s' : Sweep κ) (done : List (Timer κ)) (t : Timer κ) (rest : List (Timer κ)) :
    Prop where
  bucket : s.wheel.bucket = done ++ t :: rest
  rounds : 0 < t.rounds
  due : s.due = none
  it : s'.it = rest.head?.map (·.id)
  turns : s'.turns = s.turns + 1
  cancelled : s'.cancelled = s.cancelled
  timers : s'.timers = { s.timers with
    wheel := s.wheel.setBucket (done ++ { t with rounds := t.rounds - 1 } :: rest) }

/-- A step that fires `t`. -/
structure Fires (cbs : Callbacks κ) (now : Timestamp) (s s' : Sweep κ) (done : List (Timer κ))
    (t : Timer κ) (rest : List (Timer κ)) : Prop where
  bucket : s.wheel.bucket = done ++ t :: rest
  rounds : t.rounds ≤ 0
  due : s.due = some t
  it : s'.it = rest.head?.map (·.id)
  turns : s'.turns = s.turns + 1
  cancelled : s'.cancelled = s.cancelled ++
    (s.wheel.cancel t.id).struck (cbs s.timers.ran.length t.callback)
  timers : s'.timers =
    ⟨(Timers.firing cbs now s.timers.ran.length t).foldl TimerWheel.call s.wheel,
      s.timers.ran ++ [⟨t, now⟩]⟩

theorem step_cases (hs : s.Inv s₀) (h : s.step cbs now = some s') :
    ∃ done olds news t rest, Standing s₀ s done olds news ∧ olds ++ news = t :: rest ∧
      (Counts s s' done t rest ∨ Fires cbs now s s' done t rest) := by
  obtain ⟨hne, halive⟩ := step_alive hs h
  obtain ⟨done, olds, news, hst⟩ := hs.stand halive
  have hit := hst.it
  have hb := hst.bucket
  cases heq : olds ++ news with
  | nil => exact absurd (by rw [hit, heq]; rfl) hne
  | cons t rest =>
    rw [heq] at hit hb
    refine ⟨done, olds, news, t, rest, hst, heq, ?_⟩
    have hdue : s.due = if t.rounds ≤ 0 then some t else none := by
      rw [due, hit]
      exact Timers.due_eq hs.books hb
    unfold step at h
    rw [hit] at h
    simp only [List.head?_cons, Option.map_some, Timers.turn_eq hs.books hb,
      Option.some.injEq] at h
    subst h
    by_cases hr : 0 < t.rounds
    · rw [if_neg (Int.not_le.mpr hr)] at hdue
      exact .inl ⟨hb, hr, hdue, rfl, rfl, by simp [strikes, hdue], if_pos hr⟩
    · rw [if_pos (Int.not_lt.mp hr)] at hdue
      exact .inr ⟨hb, Int.not_lt.mp hr, hdue, rfl, rfl, by simp [strikes, asks, hdue], if_neg hr⟩

/-- The timer under the iterator is the first of the old ones, or the first of the new. -/
theorem split_head {done olds news rest : List (Timer κ)} {t : Timer κ}
    (hst : Standing s₀ s done olds news) (heq : olds ++ news = t :: rest) :
    (t ∈ s₀.wheel.bucket ∨ s₀.wheel.nextTimerId ≤ t.id) ∧
    ∃ olds' news', rest = olds' ++ news' ∧ (∀ u ∈ olds, u = t ∨ u ∈ olds') ∧
      (∀ u ∈ olds', u ∈ s₀.wheel.bucket) ∧ (∀ u ∈ news', s₀.wheel.nextTimerId ≤ u.id) ∧
      (olds' = [] ∨ olds'.length + (s.turns + 1) ≤ s₀.wheel.bucket.length) := by
  rcases List.append_eq_cons_iff.mp heq with ⟨rfl, rfl⟩ | ⟨olds', rfl, rfl⟩
  · obtain ⟨ht, hrest⟩ := List.forall_mem_cons.mp hst.new
    exact ⟨.inr ht, [], rest, rfl, by simp, by simp, hrest, .inl rfl⟩
  · obtain ⟨ht, holds⟩ := List.forall_mem_cons.mp hst.old
    refine ⟨.inl ht, olds', news, rfl, fun u hu => List.mem_cons.mp hu, holds, hst.new, .inr ?_⟩
    have := hst.turns.resolve_left (List.cons_ne_nil _ _)
    rw [List.length_cons] at this
    omega

variable {done olds news rest : List (Timer κ)} {t : Timer κ}

/-! ### Counting down -/

theorem Counts.ids (h : Counts s s' done t rest) :
    (done ++ { t with rounds := t.rounds - 1 } :: rest).map (·.id) =
      s.wheel.bucket.map (·.id) := by
  simp [h.bucket]

theorem Counts.wheel (h : Counts s s' done t rest) :
    s'.wheel = s.wheel.setBucket (done ++ { t with rounds := t.rounds - 1 } :: rest) :=
  congrArg (·.wheel) h.timers

theorem Counts.fired (h : Counts s s' done t rest) : s'.fired s₀ = s.fired s₀ := by
  rw [Sweep.fired, h.timers]
  rfl

theorem Counts.gone (h : Counts s s' done t rest) (hs : s.Inv s₀) {id : Int}
    (hid : s.wheel.Gone id) : s'.wheel.Gone id := h.wheel ▸ hid.setBucket hs.books h.ids

theorem Counts.bucket' (h : Counts s s' done t rest) (hs : s.Inv s₀) :
    s'.wheel.bucket = done ++ { t with rounds := t.rounds - 1 } :: rest := by
  rw [h.wheel, TimerWheel.bucket_eq, TimerWheel.slot_setBucket hs.books]
  exact if_pos rfl

theorem Counts.stand (h : Counts s s' done t rest) (hs : s.Inv s₀)
    (hst : Standing s₀ s done olds news) (heq : olds ++ news = t :: rest) :
    ∃ done olds news, Standing s₀ s' done olds news := by
  obtain ⟨-, olds', news', hrest, hsplit, hold, hnew, hlen⟩ := split_head hst heq
  refine ⟨done ++ [{ t with rounds := t.rounds - 1 }], olds', news', ?_, ?_, ?_, hold, hnew, ?_⟩
  · rw [h.bucket' hs, ← hrest]
    simp
  · rw [h.it, hrest]
  · rw [h.turns]
    exact hlen
  · intro u hu
    rw [h.cancelled, h.fired]
    rcases hst.settled u hu with hu | hu | hu | hu
    · exact .inl hu
    · rcases hsplit u hu with rfl | hu
      · exact .inr (.inr (.inl ⟨h.rounds, by simp⟩))
      · exact .inr (.inl hu)
    · exact .inr (.inr (.inl ⟨hu.1, List.mem_append_left _ hu.2⟩))
    · exact .inr (.inr (.inr hu))

theorem Inv.counts (hs : s.Inv s₀) (h : Counts s s' done t rest)
    (hst : Standing s₀ s done olds news) (heq : olds ++ news = t :: rest) : s'.Inv s₀ where
  books := h.wheel ▸ hs.books.setBucket h.ids
  frame := h.wheel ▸ hs.frame.trans ⟨rfl, rfl, rfl, rfl⟩
  ran := by
    rw [h.timers]
    exact hs.ran
  next := h.wheel ▸ hs.next
  cancelled id hid := h.gone hs (hs.cancelled id (h.cancelled ▸ hid))
  fired u hu := h.gone hs (hs.fired u (h.fired ▸ hu))
  once := h.fired ▸ hs.once
  spared := by
    rw [h.fired, h.cancelled]
    exact hs.spared
  due := h.fired ▸ hs.due
  others i hi u hu := by
    rw [h.cancelled, h.wheel, TimerWheel.slot_setBucket hs.books,
      if_neg (hs.frame.currentSlot ▸ Ne.symm hi)]
    exact hs.others i hi u hu
  stand _ := h.stand hs hst heq

/-! ### Firing -/

theorem Fires.wheel (h : Fires cbs now s s' done t rest) :
    s'.wheel = (Timers.firing cbs now s.timers.ran.length t).foldl TimerWheel.call s.wheel :=
  congrArg (·.wheel) h.timers

theorem Fires.fired (h : Fires cbs now s s' done t rest) (hs : s.Inv s₀) :
    s'.fired s₀ = s.fired s₀ ++ [t] := by
  rw [Sweep.fired, h.timers]
  exact Timers.firedSince_concat hs.ran _ _

theorem Fires.mem (h : Fires cbs now s s' done t rest) : t ∈ s.wheel.bucket :=
  h.bucket ▸ List.mem_append_right _ List.mem_cons_self

theorem Fires.pending (h : Fires cbs now s s' done t rest) : t ∈ s.wheel.pending :=
  TimerWheel.mem_pending_iff.mpr ⟨_, h.mem⟩

theorem Fires.gone (h : Fires cbs now s s' done t rest) (hs : s.Inv s₀) {id : Int}
    (hid : s.wheel.Gone id) : s'.wheel.Gone id := h.wheel ▸ hid.calls hs.books _

theorem Fires.gone_self (h : Fires cbs now s s' done t rest) (hs : s.Inv s₀) :
    s'.wheel.Gone t.id :=
  h.wheel ▸ Timers.firing_gone cbs now hs.books h.pending _

theorem Fires.gone_struck (h : Fires cbs now s s' done t rest) (hs : s.Inv s₀) {id : Int}
    (hid : id ∈ (s.wheel.cancel t.id).struck (cbs s.timers.ran.length t.callback)) :
    s'.wheel.Gone id := by
  rw [h.wheel, Timers.firing, List.foldl_cons, List.foldl_append]
  exact (TimerWheel.struck_gone (hs.books.cancel t.id) hid).calls
    ((hs.books.cancel t.id).calls _) _

theorem Fires.noted (h : Fires cbs now s s' done t rest) (hs : s.Inv s₀) {u : Timer κ}
    (hu : u ∈ s.wheel.pending) (hne : u.id ≠ t.id)
    (hc : u.id ∈ TimerWheel.cancels (Timers.firing cbs now s.timers.ran.length t)) :
    u.id ∈ s'.cancelled := by
  rw [Timers.cancels_firing] at hc
  rw [h.cancelled]
  exact List.mem_append_right _ (TimerWheel.mem_struck (hs.books.cancel t.id)
    ((TimerWheel.mem_pending_cancel hs.books.inv).mpr ⟨hu, hne⟩)
    ((List.mem_cons.mp hc).resolve_left hne))

theorem Fires.spared (h : Fires cbs now s s' done t rest) (hs : s.Inv s₀) :
    ∀ u ∈ s'.fired s₀, u.id ∉ s'.cancelled := by
  have hunstruck {id : Int} (hid : (s.wheel.cancel t.id).Gone id) :
      id ∉ (s.wheel.cancel t.id).struck (cbs s.timers.ran.length t.callback) := by
    intro hmem
    rcases TimerWheel.struck_from (hs.books.cancel t.id) hmem with ⟨u, hu, hu'⟩ | hle
    · exact hid.2 u hu hu'
    · exact absurd hid.1 (Int.not_lt.mpr hle)
  intro u hu hid
  rw [h.cancelled, List.mem_append] at hid
  rcases List.mem_append.mp (h.fired hs ▸ hu) with hu | hu
  · refine hid.elim (hs.spared u hu) (hunstruck ⟨?_, fun v hv => ?_⟩)
    · exact TimerWheel.nextTimerId_cancel (w := s.wheel) t.id ▸ (hs.fired u hu).1
    · exact (hs.fired u hu).2 v ((TimerWheel.mem_pending_cancel hs.books.inv).mp hv).1
  · rw [List.mem_singleton.mp hu] at hid
    refine hid.elim (fun hc => (hs.cancelled _ hc).2 t h.pending rfl) (hunstruck ?_)
    exact .cancel_self hs.books h.pending

/-- What firing `t` leaves of a list of timers. -/
def left (cbs : Callbacks κ) (now : Timestamp) (s : Sweep κ) (t : Timer κ)
    (ts : List (Timer κ)) : List (Timer κ) :=
  ts.filter (·.id ∉ TimerWheel.cancels (Timers.firing cbs now s.timers.ran.length t))

theorem Fires.mem_left (h : Fires cbs now s s' done t rest) (hs : s.Inv s₀)
    {ts : List (Timer κ)} {u v : Timer κ} (hv : v ∈ done ++ rest) (hu : u ∈ ts)
    (hid : v.id = u.id) : u.id ∈ s'.cancelled ∨ u ∈ left cbs now s t ts := by
  by_cases hc : u.id ∈ TimerWheel.cancels (Timers.firing cbs now s.timers.ran.length t)
  · have hvmem : v ∈ s.wheel.bucket := by
      rw [h.bucket, List.perm_middle.mem_iff]
      exact List.mem_cons_of_mem _ hv
    exact .inl (hid ▸ h.noted hs (TimerWheel.mem_pending_iff.mpr ⟨_, hvmem⟩)
      (hs.books.inv.ne_of_split h.bucket v hv) (hid ▸ hc))
  · exact .inr (List.mem_filter.mpr ⟨hu, by simpa using hc⟩)

theorem Fires.bucket' (h : Fires cbs now s s' done t rest) (hs : s.Inv s₀) :
    ∃ added, s'.wheel.bucket = left cbs now s t done ++ (left cbs now s t rest ++ added) ∧
      ∀ u ∈ added, s₀.wheel.nextTimerId ≤ u.id := by
  obtain ⟨added, hslot, hadded⟩ := TimerWheel.calls_slot hs.books
    (Timers.firing cbs now s.timers.ran.length t) s.wheel.currentSlot
  refine ⟨added, ?_, fun u hu => Int.le_trans hs.next (hadded u hu).fresh⟩
  rw [TimerWheel.bucket_eq, h.wheel, (TimerWheel.calls_sameFrame _ _).currentSlot, hslot,
    ← TimerWheel.bucket_eq, h.bucket, List.filter_append, List.filter_cons_of_neg (by
      simp [Timers.cancels_firing]), List.append_assoc]
  rfl

/-- Whether the callback leaves the next timer alone shows in the bucket. -/
theorem Fires.next_iff (h : Fires cbs now s s' done t rest) (hs : s.Inv s₀) {next : Timer κ}
    (hnext : rest.head? = some next) : (∃ u ∈ s'.wheel.bucket, u.id = next.id) ↔
      next.id ∉ TimerWheel.cancels (Timers.firing cbs now s.timers.ran.length t) := by
  have hslot : next ∈ s.wheel.slot s.wheel.currentSlot := by
    rw [← TimerWheel.bucket_eq, h.bucket]
    exact List.mem_append_right _ (List.mem_cons_of_mem _ (List.mem_of_head? hnext))
  rw [← TimerWheel.mem_slot_calls_iff hs.books hslot, TimerWheel.bucket_eq, h.wheel,
    (TimerWheel.calls_sameFrame _ _).currentSlot]

theorem Fires.settled (h : Fires cbs now s s' done t rest) (hs : s.Inv s₀)
    (hst : Standing s₀ s done olds news) {olds' news' : List (Timer κ)}
    (hrest : rest = olds' ++ news') (hsplit : ∀ u ∈ olds, u = t ∨ u ∈ olds') :
    ∀ u ∈ s₀.wheel.bucket, u.id ∈ s'.cancelled ∨ u ∈ left cbs now s t olds' ∨
      (0 < u.rounds ∧ { u with rounds := u.rounds - 1 } ∈ left cbs now s t done) ∨
        (u.rounds ≤ 0 ∧ u ∈ s'.fired s₀) := by
  intro u hu
  rw [h.fired hs]
  rcases hst.settled u hu with hu | hu | ⟨hpos, hu⟩ | hu
  · exact .inl (h.cancelled ▸ List.mem_append_left _ hu)
  · rcases hsplit u hu with rfl | hu
    · exact .inr (.inr (.inr ⟨h.rounds, by simp⟩))
    · exact (h.mem_left hs (v := u) (by simp [hrest, hu]) hu rfl).imp_right .inl
  · have hleft := h.mem_left hs (List.mem_append_left rest hu) hu rfl
    exact hleft.imp_right fun hl => .inr (.inl ⟨hpos, hl⟩)
  · exact .inr (.inr (.inr ⟨hu.1, List.mem_append_left _ hu.2⟩))

theorem Fires.stand (h : Fires cbs now s s' done t rest) (hs : s.Inv s₀)
    (hst : Standing s₀ s done olds news) (heq : olds ++ news = t :: rest) (halive : s'.Alive) :
    ∃ done olds news, Standing s₀ s' done olds news := by
  obtain ⟨-, olds', news', hrest, hsplit, hold, hnew, hlen⟩ := split_head hst heq
  obtain ⟨added, hbucket, hadded⟩ := h.bucket' hs
  have hsettled := h.settled hs hst hrest hsplit
  have hit := h.it
  cases hhead : rest.head? with
  | none =>
    -- The iterator is at the end: what the callback added is behind it.
    rw [hhead] at hit
    obtain rfl := List.head?_eq_none_iff.mp hhead
    obtain ⟨rfl, rfl⟩ := List.append_eq_nil_iff.mp hrest.symm
    refine ⟨left cbs now s t done ++ added, [], [], ?_, hit, .inl rfl, by simp, by simp, ?_⟩
    · rw [hbucket]
      simp [left]
    · intro u hu
      rcases hsettled u hu with hu | hu | hu | hu
      · exact .inl hu
      · cases hu
      · exact .inr (.inr (.inl ⟨hu.1, List.mem_append_left _ hu.2⟩))
      · exact .inr (.inr (.inr hu))
  | some next =>
    rw [hhead] at hit
    have hspared := (h.next_iff hs hhead).mp (halive next.id hit)
    obtain ⟨more, rfl⟩ := List.head?_eq_some_iff.mp hhead
    have happ : left cbs now s t olds' ++ left cbs now s t news' =
        left cbs now s t (next :: more) := by
      rw [hrest]
      exact (List.filter_append ..).symm
    have hhead : left cbs now s t (next :: more) = next :: left cbs now s t more :=
      List.filter_cons_of_pos (by simpa using hspared)
    refine ⟨left cbs now s t done, left cbs now s t olds', left cbs now s t news' ++ added,
      ?_, ?_, ?_, ?_, ?_, hsettled⟩
    · rw [hbucket, ← happ, List.append_assoc]
    · rw [← List.append_assoc, happ, hhead, hit]
      rfl
    · rcases hlen with rfl | hlen
      · exact .inl rfl
      · have : (left cbs now s t olds').length ≤ olds'.length := List.length_filter_le ..
        exact .inr (by rw [h.turns]; omega)
    · exact fun u hu => hold u (List.mem_filter.mp hu).1
    · intro u hu
      rcases List.mem_append.mp hu with hu | hu
      · exact hnew u (List.mem_filter.mp hu).1
      · exact hadded u hu

theorem Inv.fires (hs : s.Inv s₀) (h : Fires cbs now s s' done t rest)
    (hst : Standing s₀ s done olds news) (heq : olds ++ news = t :: rest) : s'.Inv s₀ where
  books := h.wheel ▸ hs.books.calls _
  frame := h.wheel ▸ hs.frame.trans (TimerWheel.calls_sameFrame _ _)
  ran := by
    rw [h.timers]
    exact hs.ran.trans (List.prefix_append _ _)
  next := h.wheel ▸ Int.le_trans hs.next (TimerWheel.nextTimerId_calls_le _ _)
  cancelled id hid := by
    rcases List.mem_append.mp (h.cancelled ▸ hid) with hid | hid
    · exact h.gone hs (hs.cancelled id hid)
    · exact h.gone_struck hs hid
  fired u hu := by
    rcases List.mem_append.mp (h.fired hs ▸ hu) with hu | hu
    · exact h.gone hs (hs.fired u hu)
    · exact List.mem_singleton.mp hu ▸ h.gone_self hs
  once := by
    rw [h.fired hs, List.map_append, List.nodup_append]
    refine ⟨hs.once, by simp, ?_⟩
    rintro id hid id' hid' rfl
    obtain ⟨u, hu, rfl⟩ := List.mem_map.mp hid
    have hid' : u.id = t.id := by simpa using hid'
    exact (hs.fired u hu).2 t h.pending hid'.symm
  spared := h.spared hs
  due u hu := by
    rcases List.mem_append.mp (h.fired hs ▸ hu) with hu | hu
    · exact hs.due u hu
    · exact List.mem_singleton.mp hu ▸ ⟨h.rounds, (split_head hst heq).1⟩
  others i hi u hu := by
    rcases hs.others i hi u hu with hu | hu
    · exact .inl (h.cancelled ▸ List.mem_append_left _ hu)
    · have hne : u.id ≠ t.id := fun hid =>
        hi (hs.frame.currentSlot ▸ hs.books.inv.slot_eq hu h.mem hid)
      by_cases hc : u.id ∈ TimerWheel.cancels (Timers.firing cbs now s.timers.ran.length t)
      · exact .inl (h.noted hs (TimerWheel.mem_pending_iff.mpr ⟨i, hu⟩) hne hc)
      · obtain ⟨added, hslot, -⟩ := TimerWheel.calls_slot hs.books
          (Timers.firing cbs now s.timers.ran.length t) i
        rw [h.wheel, hslot]
        exact .inr (List.mem_append_left _ (List.mem_filter.mpr ⟨hu, by simpa using hc⟩))
  stand halive := h.stand hs hst heq halive

theorem Inv.step (hs : s.Inv s₀) (h : s.step cbs now = some s') : s'.Inv s₀ := by
  obtain ⟨done, olds, news, t, rest, hst, heq, h | h⟩ := step_cases hs h
  · exact hs.counts h hst heq
  · exact hs.fires h hst heq

end Sweep

end Hound.Reactor
