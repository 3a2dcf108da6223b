import Hound.Reactor.TimerWheelInv

/-!
# The slots of a wheel

What the calls do to the buckets one by one. An add appends one timer to one bucket
(`slot_addRepeating`), a cancel takes its timer out of all of them and leaves the rest as it
was (`CancelExact`). `calls_slot` puts a whole list of calls together: what was there and was
not cancelled stays in place, and what is new stands behind it.
-/

namespace Hound.Reactor

open Hound.Lib

variable {κ : Type}

/-- The expiration, the interval and the callback of the timer that a call adds. -/
def TimerCall.adds : TimerCall κ → Option (Timestamp × Seconds × κ)
  | .addTimer when callback => some (when, ⟨false, 0⟩, callback)
  | .addRepeating when interval callback => some (when, interval, callback)
  | .cancel _ => none

namespace TimerWheel

variable {w : TimerWheel κ}

def slot (w : TimerWheel κ) (i : Nat) : List (Timer κ) := w.buckets.getD i []

theorem bucket_eq (w : TimerWheel κ) : w.bucket = w.slot w.currentSlot := rfl

/-- The slot where `insert_timer` puts a timer that expires at `when`. -/
def slotFor (w : TimerWheel κ) (when : Timestamp) : Nat :=
  (w.currentSlot + (when.diffMs w.lastTick).toNat / w.tickMs) % w.slotCount

theorem mem_pending_iff {t : Timer κ} : t ∈ w.pending ↔ ∃ i, t ∈ w.slot i := by
  rw [pending, List.mem_flatten]
  constructor
  · rintro ⟨b, hb, ht⟩
    obtain ⟨i, hi, rfl⟩ := List.mem_iff_getElem.mp hb
    exact ⟨i, by rwa [slot, List.getD_eq_getElem _ _ hi]⟩
  · rintro ⟨i, ht⟩
    rcases Nat.lt_or_ge i w.buckets.length with hi | hi
    · rw [slot, List.getD_eq_getElem _ _ hi] at ht
      exact ⟨_, List.getElem_mem hi, ht⟩
    · rw [slot, List.getD_eq_default _ _ hi] at ht
      cases ht

theorem slot_sublist (w : TimerWheel κ) (i : Nat) : (w.slot i).Sublist w.pending := by
  rcases Nat.lt_or_ge i w.buckets.length with hi | hi
  · rw [slot, List.getD_eq_getElem _ _ hi]
    exact List.sublist_flatten_of_mem (List.getElem_mem hi)
  · rw [slot, List.getD_eq_default _ _ hi]
    exact List.nil_sublist _

theorem slot_lt {t : Timer κ} {i : Nat} (hw : w.Inv) (ht : t ∈ w.slot i) : i < w.slotCount := by
  rw [← hw.buckets]
  by_contra hi
  rw [slot, List.getD_eq_default _ _ (Nat.not_lt.mp hi)] at ht
  cases ht

theorem Inv.nodup_slot (hw : w.Inv) (i : Nat) : ((w.slot i).map (·.id)).Nodup :=
  hw.nodup.sublist ((slot_sublist w i).map _)

theorem Inv.ne_of_split (hw : w.Inv) {i : Nat} {done rest : List (Timer κ)} {t : Timer κ}
    (h : w.slot i = done ++ t :: rest) : ∀ u ∈ done ++ rest, u.id ≠ t.id := by
  have hn := hw.nodup_slot i
  rw [h, (List.perm_middle.map _).nodup_iff, List.map_cons, List.nodup_cons] at hn
  exact fun u hu hid => hn.1 (hid ▸ List.mem_map_of_mem hu)

theorem Inv.disjoint (hw : w.Inv) {i j : Nat} (hij : i < j) {t u : Timer κ} (ht : t ∈ w.slot i)
    (hu : u ∈ w.slot j) : t.id ≠ u.id := by
  have hj : j < w.buckets.length := hw.buckets ▸ slot_lt hw hu
  have hn := hw.nodup
  rw [pending, List.map_flatten, List.nodup_flatten, List.pairwise_iff_getElem] at hn
  have hi := Nat.lt_trans hij hj
  have hdisj := hn.2 i j (by simpa using hi) (by simpa using hj) hij
  rw [List.getElem_map, List.getElem_map] at hdisj
  rw [slot, List.getD_eq_getElem _ _ hi] at ht
  rw [slot, List.getD_eq_getElem _ _ hj] at hu
  exact fun hid => hdisj (List.mem_map_of_mem ht) (hid ▸ List.mem_map_of_mem hu)

theorem Inv.slot_eq (hw : w.Inv) {i j : Nat} {t u : Timer κ} (ht : t ∈ w.slot i)
    (hu : u ∈ w.slot j) (hid : t.id = u.id) : i = j := by
  rcases Nat.lt_trichotomy i j with hij | hij | hij
  · exact absurd hid (hw.disjoint hij ht hu)
  · exact hij
  · exact absurd hid.symm (hw.disjoint hij hu ht)

/-! ## Adding -/

theorem slot_addRepeating (hw : w.Inv) (when : Timestamp) (interval : Seconds) (callback : κ)
    (i : Nat) : (w.addRepeating when interval callback).slot i =
      w.slot i ++ if w.slotFor when = i then [w.added when interval callback] else [] := by
  have hlt : w.slotFor when < w.buckets.length := hw.buckets ▸ Nat.mod_lt _ hw.slots
  change (w.buckets.modify (w.slotFor when) (· ++ [w.added when interval callback])).getD i [] = _
  rw [slot, List.getD_eq_getElem?_getD, List.getD_eq_getElem?_getD, List.getElem?_modify]
  split
  · next he =>
    subst he
    rw [List.getElem?_eq_getElem hlt]
    rfl
  · simp

/-! ## Cancelling -/

theorem scan_filter {timerId : Int} : ∀ {bs bs' : List (List (Timer κ))},
    (bs.flatten.map (·.id)).Nodup → scan timerId bs = some bs' →
      bs' = bs.map (·.filter (·.id ≠ timerId))
  | [], _, _, h => by cases h
  | b :: bs, bs', hn, h => by
    rw [List.flatten_cons, List.map_append, List.nodup_append] at hn
    obtain ⟨hb, hbs, hdisj⟩ := hn
    rw [scan] at h
    split at h
    · next hany =>
      cases h
      obtain ⟨t, ht, hid⟩ := List.any_eq_true.mp hany
      have hid : t.id = timerId := by simpa using hid
      have hrest : bs.map (·.filter (·.id ≠ timerId)) = bs := by
        refine (List.map_congr_left fun c hc => ?_).trans (List.map_id bs)
        refine List.filter_eq_self.mpr fun u hu => ?_
        have hne := hdisj t.id (List.mem_map_of_mem ht) u.id
          (List.mem_map_of_mem (List.mem_flatten.mpr ⟨c, hc, hu⟩))
        simpa [← hid] using Ne.symm hne
      rw [List.map_cons, hrest, eraseP_eq_filter_of_nodup hb]
    · next hany =>
      obtain ⟨bs₁, h1, rfl⟩ := Option.map_eq_some_iff.mp h
      have hself : b.filter (·.id ≠ timerId) = b := List.filter_eq_self.mpr fun t ht => by
        simpa using fun hid => hany (List.any_eq_true.mpr ⟨t, ht, by simpa using hid⟩)
      rw [List.map_cons, hself, scan_filter hbs h1]

theorem scan_mem {timerId : Int} : ∀ {bs bs' : List (List (Timer κ))},
    scan timerId bs = some bs' → ∃ t ∈ bs.flatten, t.id = timerId
  | [], _, h => by cases h
  | b :: bs, bs', h => by
    rw [scan] at h
    split at h
    · next hany =>
      obtain ⟨t, ht, hid⟩ := List.any_eq_true.mp hany
      exact ⟨t, List.mem_append_left _ ht, by simpa using hid⟩
    · obtain ⟨bs₁, h1, rfl⟩ := Option.map_eq_some_iff.mp h
      obtain ⟨t, ht, hid⟩ := scan_mem h1
      exact ⟨t, List.mem_append_right _ ht, hid⟩

theorem buckets_cancel (hw : w.Inv) (timerId : Int) :
    (w.cancel timerId).buckets = w.buckets.map (·.filter (·.id ≠ timerId)) := by
  unfold cancel
  split
  · next h => exact scan_filter hw.nodup h
  · next h =>
    refine ((List.map_congr_left fun b hb => ?_).trans (List.map_id _)).symm
    exact List.filter_eq_self.mpr fun t ht => by
      simpa using scan_none h t (List.mem_flatten.mpr ⟨b, hb, ht⟩)

theorem slot_cancel (hw : w.Inv) (timerId : Int) (i : Nat) :
    (w.cancel timerId).slot i = (w.slot i).filter (·.id ≠ timerId) := by
  rw [slot, buckets_cancel hw, slot, List.getD_eq_getElem?_getD, List.getElem?_map,
    List.getD_eq_getElem?_getD]
  cases w.buckets[i]? <;> rfl

theorem cancel_unchanged {timerId : Int} (h : ∀ t ∈ w.pending, t.id ≠ timerId) :
    w.cancel timerId = w := by
  unfold cancel
  split
  · next h1 =>
    obtain ⟨t, ht, hid⟩ := scan_mem h1
    exact absurd hid (h t ht)
  · rfl

@[simp] theorem tickMs_cancel (timerId : Int) : (w.cancel timerId).tickMs = w.tickMs := by
  unfold cancel; split <;> rfl

@[simp] theorem currentSlot_cancel (timerId : Int) :
    (w.cancel timerId).currentSlot = w.currentSlot := by
  unfold cancel; split <;> rfl

@[simp] theorem lastTick_cancel (timerId : Int) : (w.cancel timerId).lastTick = w.lastTick := by
  unfold cancel; split <;> rfl

/-! ## Bookkeeping -/

/-- The hand is on a slot and `timer_count_` counts the timers in the buckets. -/
structure Books (w : TimerWheel κ) : Prop where
  inv : w.Inv
  hand : w.currentSlot < w.slotCount
  count : w.timerCount = w.pending.length

theorem Books.new {slotCount : Nat} (h : 0 < slotCount) (tickMs : Nat) (created : Timestamp) :
    (TimerWheel.new tickMs slotCount created : TimerWheel κ).Books where
  inv := .new h tickMs created
  hand := h
  count := by rw [pending_new]; rfl

theorem Books.addRepeating (hw : w.Books) (when : Timestamp) (interval : Seconds)
    (callback : κ) : (w.addRepeating when interval callback).Books where
  inv := hw.inv.addRepeating when interval callback
  hand := hw.hand
  count := by
    rw [(pending_addRepeating hw.inv when interval callback).length_eq, List.length_cons,
      ← hw.count]
    rfl

theorem Books.cancel (hw : w.Books) (timerId : Int) : (w.cancel timerId).Books where
  inv := hw.inv.cancel timerId
  hand := by simpa using hw.hand
  count := by
    unfold TimerWheel.cancel
    split
    · next h =>
      obtain ⟨t, ht, hid⟩ := scan_mem h
      change w.timerCount - 1 = _
      rw [pending, (scan_eq h).2, List.length_eraseP_of_mem ht (by simpa using hid), hw.count]
      rfl
    · exact hw.count

theorem Books.call (hw : w.Books) : ∀ c : TimerCall κ, (w.call c).Books
  | .addTimer when callback => hw.addRepeating when _ callback
  | .addRepeating when interval callback => hw.addRepeating when interval callback
  | .cancel timerId => hw.cancel timerId

theorem Books.calls (hw : w.Books) (cs : List (TimerCall κ)) :
    (cs.foldl TimerWheel.call w).Books := by
  induction cs generalizing w with
  | nil => exact hw
  | cons c cs ih => exact ih (hw.call c)

/-! ## Many calls -/

def cancels (cs : List (TimerCall κ)) : List Int :=
  cs.filterMap fun
    | .cancel timerId => some timerId
    | _ => none

/-- A timer that the calls `cs` put into slot `i`. -/
structure Placed (w : TimerWheel κ) (cs : List (TimerCall κ)) (i : Nat) (t : Timer κ) : Prop where
  fresh : w.nextTimerId ≤ t.id
  asked : ∃ c ∈ cs, c.adds = some (t.expiration, t.interval, t.callback)
  rounds : t.rounds = w.roundsFor (w.deltaMs t)
  slot : w.slotFor t.expiration = i

theorem nextTimerId_call_le (w : TimerWheel κ) (c : TimerCall κ) :
    w.nextTimerId ≤ (w.call c).nextTimerId := by
  cases c with
  | addTimer | addRepeating => exact Int.le_of_lt (Int.lt_succ _)
  | cancel timerId => exact Int.le_of_eq (nextTimerId_cancel timerId).symm

theorem nextTimerId_calls_le (cs : List (TimerCall κ)) (w : TimerWheel κ) :
    w.nextTimerId ≤ (cs.foldl call w).nextTimerId := by
  induction cs generalizing w with
  | nil => exact Int.le_refl _
  | cons c cs ih => exact Int.le_trans (nextTimerId_call_le w c) (ih _)

/-- What the calls on a wheel leave as it is. -/
structure SameFrame (w w' : TimerWheel κ) : Prop where
  tickMs : w'.tickMs = w.tickMs
  slotCount : w'.slotCount = w.slotCount
  currentSlot : w'.currentSlot = w.currentSlot
  lastTick : w'.lastTick = w.lastTick

theorem SameFrame.refl (w : TimerWheel κ) : w.SameFrame w := ⟨rfl, rfl, rfl, rfl⟩

theorem SameFrame.trans {w₁ w₂ w₃ : TimerWheel κ} (h : w₁.SameFrame w₂) (h' : w₂.SameFrame w₃) :
    w₁.SameFrame w₃ :=
  ⟨h'.tickMs.trans h.tickMs, h'.slotCount.trans h.slotCount, h'.currentSlot.trans h.currentSlot,
    h'.lastTick.trans h.lastTick⟩

theorem call_sameFrame (w : TimerWheel κ) : ∀ c, w.SameFrame (w.call c)
  | .addTimer .. | .addRepeating .. => ⟨rfl, rfl, rfl, rfl⟩
  | .cancel _ => ⟨tickMs_cancel _, slotCount_cancel _, currentSlot_cancel _, lastTick_cancel _⟩

theorem calls_sameFrame (cs : List (TimerCall κ)) (w : TimerWheel κ) :
    w.SameFrame (cs.foldl call w) := by
  induction cs generalizing w with
  | nil => exact .refl w
  | cons c cs ih => exact (call_sameFrame w c).trans (ih _)

theorem SameFrame.slotFor {w' : TimerWheel κ} (h : w.SameFrame w') (when : Timestamp) :
    w'.slotFor when = w.slotFor when := by
  simp only [TimerWheel.slotFor, h.tickMs, h.slotCount, h.currentSlot, h.lastTick]

theorem Placed.cons {c : TimerCall κ} {cs : List (TimerCall κ)} {i : Nat} {t : Timer κ}
    (h : (w.call c).Placed cs i t) : w.Placed (c :: cs) i t where
  fresh := Int.le_trans (nextTimerId_call_le w c) h.fresh
  asked := h.asked.imp fun _ hc => ⟨List.mem_cons_of_mem _ hc.1, hc.2⟩
  rounds := by
    have hf := call_sameFrame w c
    rw [h.rounds, deltaMs, hf.lastTick, roundsFor, turnMs, hf.tickMs, hf.slotCount]
    rfl
  slot := by rw [← h.slot, (call_sameFrame w c).slotFor]

/-- **A list of calls, slot by slot**: the timers that are not cancelled stay where they were,
and the new ones stand behind them. -/
theorem calls_slot (hw : w.Books) (cs : List (TimerCall κ)) (i : Nat) :
    ∃ news, (cs.foldl call w).slot i = (w.slot i).filter (·.id ∉ cancels cs) ++ news ∧
      ∀ t ∈ news, w.Placed cs i t := by
  induction cs generalizing w with
  | nil => exact ⟨[], by simp [cancels], by simp⟩
  | cons c cs ih =>
    obtain ⟨news, heq, hnews⟩ := ih (hw.call c)
    have add (when : Timestamp) (interval : Seconds) (callback : κ)
        (hc : w.call c = w.addRepeating when interval callback)
        (ha : c.adds = some (when, interval, callback))
        (hcs : cancels (c :: cs) = cancels cs) :
        ∃ news, ((c :: cs).foldl call w).slot i =
          (w.slot i).filter (·.id ∉ cancels (c :: cs)) ++ news ∧
            ∀ t ∈ news, w.Placed (c :: cs) i t := by
      rw [List.foldl_cons, heq, hcs, hc, slot_addRepeating hw.inv, List.filter_append,
        List.append_assoc]
      refine ⟨_, rfl, fun t ht => ?_⟩
      rcases List.mem_append.mp ht with ht | ht
      · have ht := (List.mem_filter.mp ht).1
        split at ht
        · next hi =>
          rw [List.mem_singleton.mp ht]
          exact ⟨Int.le_refl _, ⟨c, List.mem_cons_self, ha⟩, by simp only [added, deltaMs], hi⟩
        · cases ht
      · exact (hnews t ht).cons
    cases c with
    | addTimer when callback => exact add when ⟨false, 0⟩ callback rfl rfl (by simp [cancels])
    | addRepeating when interval callback =>
      exact add when interval callback rfl rfl (by simp [cancels])
    | cancel timerId =>
      refine ⟨news, ?_, fun t ht => (hnews t ht).cons⟩
      have hcall : w.call (.cancel timerId) = w.cancel timerId := rfl
      rw [List.foldl_cons, heq, hcall, slot_cancel hw.inv, List.filter_filter]
      congr 1
      refine List.filter_congr fun t _ => ?_
      simp [cancels, Bool.and_comm]

theorem mem_slot_calls_iff (hw : w.Books) {cs : List (TimerCall κ)} {i : Nat} {t : Timer κ}
    (ht : t ∈ w.slot i) : (∃ u ∈ (cs.foldl call w).slot i, u.id = t.id) ↔ t.id ∉ cancels cs := by
  obtain ⟨news, heq, hnews⟩ := calls_slot hw cs i
  rw [heq]
  constructor
  · rintro ⟨u, hu, hid⟩
    rcases List.mem_append.mp hu with hu | hu
    · simpa [hid] using (List.mem_filter.mp hu).2
    · have := (hnews u hu).fresh
      have := hw.inv.id_lt t (mem_pending_iff.mpr ⟨i, ht⟩)
      omega
  · exact fun h => ⟨t, List.mem_append_left _ (List.mem_filter.mpr ⟨ht, by simpa using h⟩), rfl⟩

theorem mem_calls (hw : w.Books) {cs : List (TimerCall κ)} {t : Timer κ}
    (ht : t ∈ (cs.foldl call w).pending) :
    (t ∈ w.pending ∧ t.id ∉ cancels cs) ∨ ∃ i, w.Placed cs i t := by
  obtain ⟨i, hi⟩ := mem_pending_iff.mp ht
  obtain ⟨news, heq, hnews⟩ := calls_slot hw cs i
  rw [heq, List.mem_append, List.mem_filter] at hi
  rcases hi with ⟨hold, hid⟩ | hnew
  · exact .inl ⟨mem_pending_iff.mpr ⟨i, hold⟩, by simpa using hid⟩
  · exact .inr ⟨i, hnews t hnew⟩

/-! ## The timers that calls cancel -/

def struck (w : TimerWheel κ) : List (TimerCall κ) → List Int
  | [] => []
  | .cancel timerId :: cs =>
    if w.pending.any (·.id = timerId) then timerId :: struck (w.cancel timerId) cs
    else struck (w.cancel timerId) cs
  | c :: cs => struck (w.call c) cs

/-- An id was given out and its timer is no longer pending. -/
def Gone (w : TimerWheel κ) (id : Int) : Prop := id < w.nextTimerId ∧ ∀ t ∈ w.pending, t.id ≠ id

theorem Gone.calls {id : Int} (h : w.Gone id) (hw : w.Books) (cs : List (TimerCall κ)) :
    (cs.foldl TimerWheel.call w).Gone id := by
  refine ⟨Int.lt_of_lt_of_le h.1 (nextTimerId_calls_le cs w), fun t ht hid => ?_⟩
  rcases mem_calls hw ht with ⟨hold, -⟩ | ⟨i, hnew⟩
  · exact h.2 t hold hid
  · have := h.1
    have := hnew.fresh
    omega

theorem Gone.cancel_self (hw : w.Books) {t : Timer κ} (ht : t ∈ w.pending) :
    (w.cancel t.id).Gone t.id := by
  refine ⟨?_, fun u hu => ((mem_pending_cancel hw.inv).mp hu).2⟩
  rw [nextTimerId_cancel]
  exact hw.inv.id_lt t ht

theorem struck_gone (hw : w.Books) {cs : List (TimerCall κ)} {id : Int} (h : id ∈ w.struck cs) :
    (cs.foldl call w).Gone id := by
  induction cs generalizing w with
  | nil => cases h
  | cons c cs ih =>
    cases c with
    | addTimer | addRepeating => exact ih (hw.addRepeating ..) h
    | cancel timerId =>
      rw [struck] at h
      split at h
      · next hany =>
        obtain ⟨t, ht, hid⟩ := List.any_eq_true.mp hany
        have hid : t.id = timerId := by simpa using hid
        rcases List.mem_cons.mp h with rfl | h
        · exact hid ▸ (Gone.cancel_self hw ht).calls (hw.cancel t.id) cs
        · exact ih (hw.cancel timerId) h
      · exact ih (hw.cancel timerId) h

/-- A timer that the calls cancel was pending, or is newer than them. -/
theorem struck_from (hw : w.Books) {cs : List (TimerCall κ)} {id : Int} (h : id ∈ w.struck cs) :
    (∃ t ∈ w.pending, t.id = id) ∨ w.nextTimerId ≤ id := by
  induction cs generalizing w with
  | nil => cases h
  | cons c cs ih =>
    have add (when : Timestamp) (interval : Seconds) (callback : κ)
        (h : id ∈ (w.addRepeating when interval callback).struck cs) :
        (∃ t ∈ w.pending, t.id = id) ∨ w.nextTimerId ≤ id := by
      rcases ih (hw.addRepeating when interval callback) h with ⟨t, ht, rfl⟩ | hle
      · rcases (mem_pending_addRepeating hw.inv).mp ht with rfl | ht
        · exact .inr (Int.le_refl _)
        · exact .inl ⟨t, ht, rfl⟩
      · have : w.nextTimerId + 1 ≤ id := hle
        exact .inr (by omega)
    have cancel (timerId : Int) (h : id ∈ (w.cancel timerId).struck cs) :
        (∃ t ∈ w.pending, t.id = id) ∨ w.nextTimerId ≤ id := by
      rcases ih (hw.cancel timerId) h with ⟨t, ht, rfl⟩ | hle
      · exact .inl ⟨t, ((mem_pending_cancel hw.inv).mp ht).1, rfl⟩
      · exact .inr (nextTimerId_cancel (w := w) timerId ▸ hle)
    cases c with
    | addTimer when callback => exact add when _ callback h
    | addRepeating when interval callback => exact add when interval callback h
    | cancel timerId =>
      rw [struck] at h
      split at h
      · next hany =>
        rcases List.mem_cons.mp h with rfl | h
        · obtain ⟨t, ht, hid⟩ := List.any_eq_true.mp hany
          exact .inl ⟨t, ht, by simpa using hid⟩
        · exact cancel timerId h
      · exact cancel timerId h

theorem mem_struck (hw : w.Books) {cs : List (TimerCall κ)} {t : Timer κ} (ht : t ∈ w.pending)
    (h : t.id ∈ cancels cs) : t.id ∈ w.struck cs := by
  induction cs generalizing w with
  | nil => cases h
  | cons c cs ih =>
    cases c with
    | addTimer | addRepeating =>
      exact ih (hw.addRepeating ..) ((mem_pending_addRepeating hw.inv).mpr (.inr ht))
        (by simpa [cancels] using h)
    | cancel timerId =>
      rw [struck]
      by_cases hid : t.id = timerId
      · rw [if_pos (List.any_eq_true.mpr ⟨t, ht, by simpa using hid⟩), hid]
        exact List.mem_cons_self
      · have hrest := ih (hw.cancel timerId) ((mem_pending_cancel hw.inv).mpr ⟨ht, hid⟩)
          (by simpa [cancels, hid] using h)
        split
        · exact List.mem_cons_of_mem _ hrest
        · exact hrest

end TimerWheel

end Hound.Reactor
