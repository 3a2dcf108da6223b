import Hound.Reactor.WheelSlots

/-!
# One turn of the sweep

`Timers.turn` is the body of the loop over a bucket, cut out of `Timers.sweep`. Under unique
ids a turn that fires is a list of calls on the wheel: cancel the timer, do what the callback
does, add the timer again if it repeats (`Timers.firing`). So `turn_cases` puts all there is
to know of a turn into the terms of `calls_slot`.
-/

namespace Hound.Reactor

variable {κ : Type}

namespace TimerWheel

variable {w : TimerWheel κ}

/-! ## Setting a bucket -/

theorem slot_setBucket (hw : w.Books) (b : List (Timer κ)) (i : Nat) :
    (w.setBucket b).slot i = if w.currentSlot = i then b else w.slot i := by
  have hlt : w.currentSlot < w.buckets.length := hw.inv.buckets ▸ hw.hand
  rw [slot, setBucket, slot, List.getD_eq_getElem?_getD, List.getElem?_set,
    if_pos hlt, List.getD_eq_getElem?_getD]
  split <;> rfl

theorem ids_setBucket (hw : w.Books) {b : List (Timer κ)}
    (hb : b.map (·.id) = w.bucket.map (·.id)) :
    (w.setBucket b).pending.map (·.id) = w.pending.map (·.id) := by
  have hlt : w.currentSlot < w.buckets.length := hw.inv.buckets ▸ hw.hand
  have hlt' : w.currentSlot < (w.buckets.map (·.map (·.id))).length := by simpa using hlt
  have hself : w.bucket.map (·.id) = (w.buckets.map (·.map (·.id)))[w.currentSlot] := by
    rw [bucket, List.getD_eq_getElem _ _ hlt, List.getElem_map]
  rw [pending, pending, setBucket, List.map_flatten, List.map_flatten, List.map_set, hb, hself,
    List.set_getElem_self]

/-- A bucket with the same timers in the same order keeps the books. -/
theorem Books.setBucket (hw : w.Books) {b : List (Timer κ)}
    (hb : b.map (·.id) = w.bucket.map (·.id)) : (w.setBucket b).Books := by
  have hids := ids_setBucket hw hb
  have hmem {t : Timer κ} (ht : t ∈ (w.setBucket b).pending) : ∃ u ∈ w.pending, u.id = t.id := by
    have := List.mem_map_of_mem (f := (·.id)) ht
    rwa [hids, List.mem_map] at this
  refine ⟨⟨hw.inv.slots, (List.length_set ..).trans hw.inv.buckets, hw.inv.next_pos, ?_, ?_, ?_⟩,
    hw.hand, ?_⟩
  · intro t ht
    obtain ⟨u, hu, hid⟩ := hmem ht
    exact hid ▸ hw.inv.id_pos u hu
  · intro t ht
    obtain ⟨u, hu, hid⟩ := hmem ht
    exact hid ▸ hw.inv.id_lt u hu
  · exact hids ▸ hw.inv.nodup
  · have hlen := congrArg List.length hids
    rw [List.length_map, List.length_map] at hlen
    rw [hlen, ← hw.count]
    rfl

theorem Gone.setBucket {id : Int} (h : w.Gone id) (hw : w.Books) {b : List (Timer κ)}
    (hb : b.map (·.id) = w.bucket.map (·.id)) : (w.setBucket b).Gone id := by
  refine ⟨h.1, fun t ht hid => ?_⟩
  have hmem := List.mem_map_of_mem (f := (·.id)) ht
  rw [ids_setBucket hw hb] at hmem
  obtain ⟨u, hu, hu'⟩ := List.mem_map.mp hmem
  exact h.2 u hu (hu'.trans hid)

theorem setBucket_erase (hw : w.Books) {t : Timer κ} (ht : t ∈ w.bucket) :
    { w.setBucket (w.bucket.eraseP (·.id = t.id)) with timerCount := w.timerCount - 1 } =
      w.cancel t.id := by
  have hlt : w.currentSlot < w.buckets.length := hw.inv.buckets ▸ hw.hand
  have hpend : t ∈ w.pending := (slot_sublist w w.currentSlot).subset ht
  have hbuckets : w.buckets.set w.currentSlot (w.bucket.eraseP (·.id = t.id)) =
      (w.cancel t.id).buckets := by
    rw [buckets_cancel hw.inv]
    refine List.ext_getElem (by simp) fun i hi hi' => ?_
    rw [List.length_map] at hi'
    rw [List.getElem_set, List.getElem_map]
    split
    · next he =>
      subst he
      rw [bucket_eq, Lib.eraseP_eq_filter_of_nodup (hw.inv.nodup_slot _), slot,
        List.getD_eq_getElem _ _ hlt]
    · next hne =>
      refine (List.filter_eq_self.mpr fun u hu => ?_).symm
      have hu : u ∈ w.slot i := by rwa [slot, List.getD_eq_getElem _ _ hi']
      simpa using fun hid => hne (hw.inv.slot_eq ht hu hid.symm)
  rw [setBucket, hbuckets]
  unfold cancel
  split
  · rfl
  · next hnone =>
    exact absurd rfl (scan_none hnone t ((slot_sublist w w.currentSlot).subset ht))

theorem pending_counted (hw : w.Books) {done rest : List (Timer κ)} {t u : Timer κ}
    (hb : w.bucket = done ++ t :: rest)
    (hu : u ∈ (w.setBucket (done ++ { t with rounds := t.rounds - 1 } :: rest)).pending) :
    u ∈ w.pending ∨ (t ∈ w.pending ∧ u = { t with rounds := t.rounds - 1 }) := by
  have hmem {v : Timer κ} (hv : v ∈ done ++ t :: rest) : v ∈ w.pending :=
    mem_pending_iff.mpr ⟨w.currentSlot, by rwa [← bucket_eq, hb]⟩
  obtain ⟨i, hi⟩ := mem_pending_iff.mp hu
  rw [slot_setBucket hw] at hi
  split at hi
  · rcases List.mem_append.mp hi with hi | hi
    · exact .inl (hmem (List.mem_append_left _ hi))
    · rcases List.mem_cons.mp hi with rfl | hi
      · exact .inr ⟨hmem (List.mem_append_right _ List.mem_cons_self), rfl⟩
      · exact .inl (hmem (List.mem_append_right _ (List.mem_cons_of_mem _ hi)))
  · exact .inl (mem_pending_iff.mpr ⟨i, hi⟩)

theorem Books.ticked (hw : w.Books) (now : Timestamp) :
    ({ w with lastTick := now } : TimerWheel κ).Books :=
  ⟨⟨hw.inv.slots, hw.inv.buckets, hw.inv.next_pos, hw.inv.id_pos, hw.inv.id_lt, hw.inv.nodup⟩,
    hw.hand, hw.count⟩

theorem Books.turned (hw : w.Books) {i : Nat} (hi : i < w.slotCount) :
    ({ w with currentSlot := i } : TimerWheel κ).Books :=
  ⟨⟨hw.inv.slots, hw.inv.buckets, hw.inv.next_pos, hw.inv.id_pos, hw.inv.id_lt, hw.inv.nodup⟩,
    hi, hw.count⟩

end TimerWheel

/-! ## The turn -/

namespace Timers

variable (cbs : Callbacks κ) (now : Timestamp)

/-- One turn of the loop of `tick` over a bucket, with the iterator at `it`. -/
def turn (s : Timers κ) (it : Int) : Except TickFault (Timers κ × Option Int) :=
  match s.wheel.bucket.find? (·.id = it) with
  | none => .error .dangling
  | some timer =>
    let next := nextIter it s.wheel.bucket
    if timer.rounds > 0 then
      let bucket := s.wheel.bucket.map fun t =>
        if t.id = it then { t with rounds := t.rounds - 1 } else t
      .ok ({ s with wheel := s.wheel.setBucket bucket }, next)
    else
      let wheel := s.wheel.setBucket (s.wheel.bucket.eraseP (·.id = it))
      let s := { s with wheel := { wheel with timerCount := wheel.timerCount - 1 } }
      .ok (s.fire cbs now timer, next)

theorem sweep_succ (fuel : Nat) (s : Timers κ) (it : Int) :
    s.sweep cbs now (fuel + 1) (some it) =
      (s.turn cbs now it).bind fun p => p.1.sweep cbs now fuel p.2 := by
  rw [sweep, turn]
  cases s.wheel.bucket.find? (·.id = it) with
  | none => rfl
  | some timer =>
    dsimp only
    split <;> rfl

/-- The timer that a turn at `it` fires. -/
def due (s : Timers κ) (it : Option Int) : Option (Timer κ) :=
  (it.bind fun it => s.wheel.bucket.find? (·.id = it)).filter (·.rounds ≤ 0)

/-- What a turn that fires `t` as the `n`-th timer does to the wheel. -/
def firing (n : Nat) (t : Timer κ) : List (TimerCall κ) :=
  .cancel t.id :: (cbs n t.callback ++
    if t.interval.positive then
      [.addRepeating (now.addSeconds t.interval) t.interval t.callback]
    else [])

theorem cancels_firing (n : Nat) (t : Timer κ) : TimerWheel.cancels (firing cbs now n t) =
    t.id :: TimerWheel.cancels (cbs n t.callback) := by
  rw [firing]
  split <;> simp [TimerWheel.cancels]

theorem firing_eq (w : TimerWheel κ) (n : Nat) (t : Timer κ) :
    (firing cbs now n t).foldl TimerWheel.call w =
      let called := (cbs n t.callback).foldl TimerWheel.call (w.cancel t.id)
      if t.interval.positive then
        called.addRepeating (now.addSeconds t.interval) t.interval t.callback
      else called := by
  rw [firing, List.foldl_cons, List.foldl_append]
  dsimp only
  split <;> rfl

theorem firing_gone {w : TimerWheel κ} (hw : w.Books) {t : Timer κ} (ht : t ∈ w.pending)
    (n : Nat) : ((firing cbs now n t).foldl TimerWheel.call w).Gone t.id :=
  (TimerWheel.Gone.cancel_self hw ht).calls (hw.cancel t.id) _

variable {cbs now} {s s' : Timers κ} {it : Int} {it' : Option Int}

theorem fire_eq (s : Timers κ) (t : Timer κ) :
    Timers.fire cbs now { s with wheel := s.wheel.cancel t.id } t =
      ⟨(firing cbs now s.ran.length t).foldl TimerWheel.call s.wheel, s.ran ++ [⟨t, now⟩]⟩ := by
  rw [fire, firing, List.foldl_cons, List.foldl_append]
  split <;> rfl

theorem nextIter_eq {done rest : List (Timer κ)} {t : Timer κ}
    (hdone : ∀ u ∈ done, u.id ≠ t.id) :
    nextIter t.id (done ++ t :: rest) = rest.head?.map (·.id) := by
  rw [nextIter, List.dropWhile_append_of_pos (by simpa using hdone)]
  simp

theorem find_eq (hw : s.wheel.Books) {done rest : List (Timer κ)} {t : Timer κ}
    (hb : s.wheel.bucket = done ++ t :: rest) :
    s.wheel.bucket.find? (·.id = t.id) = some t := by
  refine List.find?_eq_some_iff_append.mpr ⟨by simp, done, rest, hb, fun u hu => ?_⟩
  simpa using hw.inv.ne_of_split hb u (List.mem_append_left _ hu)

theorem due_eq (hw : s.wheel.Books) {done rest : List (Timer κ)} {t : Timer κ}
    (hb : s.wheel.bucket = done ++ t :: rest) :
    s.due (some t.id) = if t.rounds ≤ 0 then some t else none := by
  rw [due, Option.bind_some, find_eq hw hb, Option.filter_some]
  simp

theorem turn_eq (hw : s.wheel.Books) {done rest : List (Timer κ)} {t : Timer κ}
    (hb : s.wheel.bucket = done ++ t :: rest) :
    s.turn cbs now t.id = .ok
      (if t.rounds > 0 then
        { s with wheel := s.wheel.setBucket (done ++ { t with rounds := t.rounds - 1 } :: rest) }
      else
        ⟨(firing cbs now s.ran.length t).foldl TimerWheel.call s.wheel, s.ran ++ [⟨t, now⟩]⟩,
        rest.head?.map (·.id)) := by
  have hne := hw.inv.ne_of_split hb
  have hdone : ∀ u ∈ done, u.id ≠ t.id := fun u hu => hne u (List.mem_append_left _ hu)
  have hrest : ∀ u ∈ rest, u.id ≠ t.id := fun u hu => hne u (List.mem_append_right _ hu)
  have hnext : nextIter t.id s.wheel.bucket = rest.head?.map (·.id) := hb ▸ nextIter_eq hdone
  have hmap : (s.wheel.bucket.map fun u =>
      if u.id = t.id then { u with rounds := u.rounds - 1 } else u) =
        done ++ { t with rounds := t.rounds - 1 } :: rest := by
    rw [hb, List.map_append, List.map_cons, if_pos rfl]
    congr 1
    · exact (List.map_congr_left fun u hu => if_neg (hdone u hu)).trans (List.map_id _)
    · congr 1
      exact (List.map_congr_left fun u hu => if_neg (hrest u hu)).trans (List.map_id _)
  have hmem : t ∈ s.wheel.bucket := hb ▸ List.mem_append_right _ List.mem_cons_self
  rw [turn, find_eq hw hb]
  dsimp only
  rw [hnext, hmap]
  split
  · rfl
  · have herase := TimerWheel.setBucket_erase hw hmem
    rw [← fire_eq, ← herase]
    rfl

/-- **What a turn does.** It looks at the timer under the iterator, counts a round down or
fires, and goes on to the timer that stood behind. -/
theorem turn_cases (hw : s.wheel.Books) (h : s.turn cbs now it = .ok (s', it')) :
    ∃ done t rest, s.wheel.bucket = done ++ t :: rest ∧ t.id = it ∧
      it' = rest.head?.map (·.id) ∧
      ((0 < t.rounds ∧ s' = { s with
          wheel := s.wheel.setBucket (done ++ { t with rounds := t.rounds - 1 } :: rest) }) ∨
        (t.rounds ≤ 0 ∧ s' =
          ⟨(firing cbs now s.ran.length t).foldl TimerWheel.call s.wheel,
            s.ran ++ [⟨t, now⟩]⟩)) := by
  cases hfind : s.wheel.bucket.find? (·.id = it) with
  | none =>
    rw [turn, hfind] at h
    cases h
  | some t =>
    obtain ⟨hid, done, rest, hb, -⟩ := List.find?_eq_some_iff_append.mp hfind
    have hid : t.id = it := by simpa using hid
    subst hid
    rw [turn_eq hw hb] at h
    injection h with h
    refine ⟨done, t, rest, hb, rfl, (congrArg Prod.snd h).symm, ?_⟩
    have h1 := congrArg Prod.fst h
    dsimp only at h1
    split at h1
    · next hr => exact .inl ⟨hr, h1.symm⟩
    · next hr => exact .inr ⟨Int.not_lt.mp hr, h1.symm⟩

/-- A turn fails exactly when the timer under the iterator is gone. -/
theorem turn_isOk_iff (hw : s.wheel.Books) :
    (∃ p, s.turn cbs now it = .ok p) ↔ ∃ t ∈ s.wheel.bucket, t.id = it := by
  constructor
  · rintro ⟨⟨s', it'⟩, h⟩
    obtain ⟨done, t, rest, hb, hid, -⟩ := turn_cases hw h
    exact ⟨t, hb ▸ List.mem_append_right _ List.mem_cons_self, hid⟩
  · rintro ⟨t, ht, rfl⟩
    obtain ⟨done, rest, hb⟩ := List.append_of_mem ht
    exact ⟨_, turn_eq hw hb⟩

theorem turn_dangling_iff (hw : s.wheel.Books) :
    s.turn cbs now it = .error .dangling ↔ ¬ ∃ t ∈ s.wheel.bucket, t.id = it := by
  have hok : (∃ p, s.turn cbs now it = .ok p) ↔ _ := turn_isOk_iff hw
  rw [← hok]
  unfold turn
  split
  · simp
  · dsimp only
    split <;> simp

theorem turn_books (hw : s.wheel.Books) (h : s.turn cbs now it = .ok (s', it')) :
    s'.wheel.Books := by
  obtain ⟨done, t, rest, hb, -, -, ⟨-, rfl⟩ | ⟨-, rfl⟩⟩ := turn_cases hw h
  · exact hw.setBucket (by simp [hb])
  · exact hw.calls _

/-- The timers fired since `s₀`. -/
def firedSince (s₀ s : Timers κ) : List (Timer κ) := (s.ran.drop s₀.ran.length).map (·.timer)

theorem firedSince_concat {s₀ s : Timers κ} (h : s₀.ran <+: s.ran) (w : TimerWheel κ)
    (f : Fired κ) : firedSince s₀ ⟨w, s.ran ++ [f]⟩ = firedSince s₀ s ++ [f.timer] := by
  rw [firedSince, List.drop_append_of_le_length h.length_le, List.map_append]
  rfl

def handed (s : Timers κ) : Timers κ :=
  { s with wheel :=
    { s.wheel with currentSlot := (s.wheel.currentSlot + 1) % s.wheel.slotCount } }

theorem handed_books (hw : s.wheel.Books) : s.handed.wheel.Books :=
  hw.turned (Nat.mod_lt _ hw.inv.slots)

theorem sweep_rule {I : Timers κ → Option Int → Prop}
    (hturn : ∀ {s s' : Timers κ} {it : Int} {it' : Option Int}, I s (some it) →
      s.turn cbs now it = .ok (s', it') → I s' it') :
    ∀ {fuel : Nat} {s s' : Timers κ} {it : Option Int}, I s it →
      s.sweep cbs now fuel it = .ok s' → I s' none
  | _, _, _, none, hI, h => by
    rw [sweep] at h
    cases h
    exact hI
  | 0, _, _, some _, _, h => by cases h
  | fuel + 1, s, s', some it, hI, h => by
    rw [sweep_succ] at h
    cases ht : s.turn cbs now it with
    | error e =>
      rw [ht] at h
      cases h
    | ok p =>
      rw [ht] at h
      exact sweep_rule hturn (hturn hI ht) h

end Timers

end Hound.Reactor
