import Hound.Lib.Lists
import Hound.Reactor.TimerWheel

/-!
# The pending timers of a wheel

What `add_timer`, `add_repeating` and `cancel` do to the timers in the buckets, seen as
one list: an add puts one timer with a fresh id there, a cancel takes the one with its id.
-/

namespace Hound.Reactor.TimerWheel

open Hound.Lib

variable {κ : Type} {w : TimerWheel κ}

/-- Ids are handed out once and the hand turns over `slot_count_` buckets. -/
structure Inv (w : TimerWheel κ) : Prop where
  slots : 0 < w.slotCount
  buckets : w.buckets.length = w.slotCount
  next_pos : 0 < w.nextTimerId
  id_pos : ∀ t ∈ w.pending, 0 < t.id
  id_lt : ∀ t ∈ w.pending, t.id < w.nextTimerId
  nodup : (w.pending.map (·.id)).Nodup

@[simp] theorem pending_new (tickMs slotCount : Nat) (created : Timestamp) :
    (new tickMs slotCount created : TimerWheel κ).pending = [] := by
  simp [new, pending]

theorem Inv.new {slotCount : Nat} (h : 0 < slotCount) (tickMs : Nat) (created : Timestamp) :
    (TimerWheel.new tickMs slotCount created : TimerWheel κ).Inv where
  slots := h
  buckets := List.length_replicate
  next_pos := Int.one_pos
  id_pos := by simp
  id_lt := by simp
  nodup := by simp

/-! ## Adding -/

/-- The timer that `add_repeating` puts into a bucket. -/
def added (w : TimerWheel κ) (when : Timestamp) (interval : Seconds) (callback : κ) : Timer κ :=
  let t : Timer κ := { id := w.nextTimerId, expiration := when, callback, interval }
  { t with rounds := w.roundsFor (w.deltaMs t) }

theorem pending_addRepeating (hw : w.Inv) (when : Timestamp) (interval : Seconds) (callback : κ) :
    (w.addRepeating when interval callback).pending.Perm
      (w.added when interval callback :: w.pending) :=
  flatten_modify_concat (by
    rw [hw.buckets]
    exact Nat.mod_lt _ hw.slots)

theorem mem_pending_addRepeating (hw : w.Inv) {when : Timestamp} {interval : Seconds}
    {callback : κ} {t : Timer κ} :
    t ∈ (w.addRepeating when interval callback).pending ↔
      t = w.added when interval callback ∨ t ∈ w.pending := by
  rw [(pending_addRepeating hw when interval callback).mem_iff, List.mem_cons]

theorem Inv.addRepeating (hw : w.Inv) (when : Timestamp) (interval : Seconds) (callback : κ) :
    (w.addRepeating when interval callback).Inv where
  slots := hw.slots
  buckets := (List.length_modify ..).trans hw.buckets
  next_pos := Int.add_pos hw.next_pos Int.one_pos
  id_pos t ht := by
    rcases (mem_pending_addRepeating hw).mp ht with rfl | ht
    · exact hw.next_pos
    · exact hw.id_pos t ht
  id_lt t ht := by
    change t.id < w.nextTimerId + 1
    rcases (mem_pending_addRepeating hw).mp ht with rfl | ht
    · exact Int.lt_succ _
    · have := hw.id_lt t ht
      omega
  nodup := by
    rw [((pending_addRepeating hw when interval callback).map _).nodup_iff, List.map_cons,
      List.nodup_cons]
    refine ⟨fun hmem => ?_, hw.nodup⟩
    obtain ⟨t, ht, hid⟩ := List.mem_map.mp hmem
    have := hw.id_lt t ht
    have : t.id = w.nextTimerId := hid
    omega

/-! ## Cancelling -/

theorem scan_eq {timerId : Int} :
    ∀ {bs bs' : List (List (Timer κ))}, scan timerId bs = some bs' →
      bs'.length = bs.length ∧ bs'.flatten = bs.flatten.eraseP (·.id = timerId)
  | [], _, h => by cases h
  | b :: bs, bs', h => by
    rw [scan] at h
    split at h
    · next hb =>
      cases h
      obtain ⟨t, ht, hid⟩ := List.any_eq_true.mp hb
      refine ⟨rfl, ?_⟩
      rw [List.flatten_cons, List.flatten_cons]
      exact (List.eraseP_append_left (p := (·.id = timerId)) hid _ ht).symm
    · next hb =>
      obtain ⟨bs₁, h1, rfl⟩ := Option.map_eq_some_iff.mp h
      obtain ⟨hlen, hflat⟩ := scan_eq h1
      have hno : ∀ t ∈ b, ¬ decide (t.id = timerId) = true := fun t ht hid =>
        hb (List.any_eq_true.mpr ⟨t, ht, hid⟩)
      refine ⟨by simpa using hlen, ?_⟩
      rw [List.flatten_cons, List.flatten_cons, List.eraseP_append_right _ hno, hflat]

theorem scan_none {timerId : Int} :
    ∀ {bs : List (List (Timer κ))}, scan timerId bs = none → ∀ t ∈ bs.flatten, t.id ≠ timerId
  | [], _, _, ht => by cases ht
  | b :: bs, h, t, ht => by
    rw [scan] at h
    split at h
    · cases h
    · next hb =>
      rcases List.mem_append.mp (List.flatten_cons ▸ ht) with ht | ht
      · exact fun hid => hb (List.any_eq_true.mpr ⟨t, ht, by simpa using hid⟩)
      · exact scan_none (Option.map_eq_none_iff.mp h) t ht

theorem pending_cancel (hw : w.Inv) (timerId : Int) :
    (w.cancel timerId).pending = w.pending.filter (·.id ≠ timerId) := by
  unfold cancel
  split
  · next h =>
    rw [← eraseP_eq_filter_of_nodup hw.nodup]
    exact (scan_eq h).2
  · next h => exact (List.filter_eq_self.mpr fun t ht => by simpa using scan_none h t ht).symm

theorem mem_pending_cancel (hw : w.Inv) {timerId : Int} {t : Timer κ} :
    t ∈ (w.cancel timerId).pending ↔ t ∈ w.pending ∧ t.id ≠ timerId := by
  simp [pending_cancel hw]

@[simp] theorem nextTimerId_cancel (timerId : Int) :
    (w.cancel timerId).nextTimerId = w.nextTimerId := by
  unfold cancel; split <;> rfl

@[simp] theorem slotCount_cancel (timerId : Int) : (w.cancel timerId).slotCount = w.slotCount := by
  unfold cancel; split <;> rfl

theorem Inv.cancel (hw : w.Inv) (timerId : Int) : (w.cancel timerId).Inv where
  slots := by simpa using hw.slots
  buckets := by
    rw [slotCount_cancel]
    unfold TimerWheel.cancel
    split
    · next h => exact (scan_eq h).1.trans hw.buckets
    · exact hw.buckets
  next_pos := by simpa using hw.next_pos
  id_pos t ht := hw.id_pos t ((mem_pending_cancel hw).mp ht).1
  id_lt t ht := by simpa using hw.id_lt t ((mem_pending_cancel hw).mp ht).1
  nodup := by
    rw [pending_cancel hw]
    exact hw.nodup.sublist (List.filter_sublist.map _)

theorem Inv.call (hw : w.Inv) : ∀ c : TimerCall κ, (w.call c).Inv
  | .addTimer when callback => hw.addRepeating when _ callback
  | .addRepeating when interval callback => hw.addRepeating when interval callback
  | .cancel timerId => hw.cancel timerId

end Hound.Reactor.TimerWheel
