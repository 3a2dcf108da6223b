import Hound.Reactor.SelectPoller

/-!
# When the poller's two containers stay in step

`Registered` is what the poller keeps by itself: a channel in `channels_` is alive, knows that
it was added and stands under its own descriptor. That `channel_list_` holds the same
channels (`Intact`) lasts only while no channel is taken out through another
channel's entry: `remove_channel` then erases the entry of the one and the list element of the
other. The one left in `channel_list_` is not taken out when it is destroyed.
-/

namespace Hound.Reactor

open Hound.Lib

variable {s s' : PollState} {c d : Nat} {ch : Channel} {fd : Int} {i : ChannelCall}

namespace PollState

/-! ## The heap -/

theorem lt_of_deref (h : s.deref c = some ch) : c < s.heap.length := by
  by_contra hc
  simp [deref, List.getElem?_eq_none (Nat.le_of_not_lt hc)] at h

theorem deref_put_self (h : s.deref c = some ch) (o : Option Channel) :
    (s.put c o).deref c = o := by
  simp [deref, put, lt_of_deref h]

theorem deref_put_ne (h : d ≠ c) (o : Option Channel) : (s.put c o).deref d = s.deref d := by
  simp [deref, put, List.getElem?_set_ne h.symm]

@[simp] theorem put_poller (o : Option Channel) : (s.put c o).poller = s.poller := rfl

theorem deref_construct_self : (s.construct fd).deref s.heap.length = some { fd } := by
  simp [deref, construct]

theorem deref_construct (h : s.deref c = some ch) : (s.construct fd).deref c = some ch := by
  have hc := lt_of_deref h
  simpa [deref, construct, List.getElem?_append_left hc] using h

/-! ## The calls -/

theorem lookup_update (events : BitVec 32) :
    (s.update c ch events).poller.channels.lookup fd =
      if fd = ch.fd ∧ s.poller.channels.lookup ch.fd = none then some c
      else s.poller.channels.lookup fd := by
  by_cases hn : s.poller.channels.lookup ch.fd = none
  · by_cases hfd : fd = ch.fd
    · subst hfd
      simp [update, updateChannel, hn]
    · simp [update, updateChannel, hn, hfd, AList.lookup_insert_ne]
  · simp [update, updateChannel, hn]

theorem channelList_update (events : BitVec 32) :
    (s.update c ch events).poller.channelList =
      if s.poller.channels.lookup ch.fd = none then s.poller.channelList ++ [c]
      else s.poller.channelList := by
  by_cases hn : s.poller.channels.lookup ch.fd = none <;> simp [update, updateChannel, hn]

theorem deref_update_self (h : s.deref c = some ch) (events : BitVec 32) :
    (s.update c ch events).deref c =
      some { ch with events, addedToLoop := true, index := 0 } := deref_put_self h _

theorem deref_update_ne (h : d ≠ c) (events : BitVec 32) :
    (s.update c ch events).deref d = s.deref d := deref_put_ne h _

theorem lookup_remove : (s.remove c ch).poller.channels.lookup fd =
    if ch.addedToLoop = true ∧ fd = ch.fd then none else s.poller.channels.lookup fd := by
  by_cases ha : ch.addedToLoop = true
  · by_cases hn : s.poller.channels.lookup ch.fd = none
    · by_cases hfd : fd = ch.fd
      · subst hfd
        simp [remove, removeChannel, ha, hn]
      · simp [remove, removeChannel, ha, hn, hfd]
    · by_cases hfd : fd = ch.fd
      · subst hfd
        simp [remove, removeChannel, ha, hn]
      · simp [remove, removeChannel, ha, hn, hfd, AList.lookup_erase_ne]
  · simp [remove, ha]

theorem channelList_remove : (s.remove c ch).poller.channelList =
    if ch.addedToLoop = true ∧ s.poller.channels.lookup ch.fd ≠ none then
      s.poller.channelList.filter (· ≠ c)
    else s.poller.channelList := by
  by_cases ha : ch.addedToLoop = true
  · by_cases hn : s.poller.channels.lookup ch.fd = none <;>
      simp [remove, removeChannel, ha, hn]
  · simp [remove, ha]

theorem deref_remove_self (h : s.deref c = some ch) : ∃ ch', (s.remove c ch).deref c = some ch' ∧
    ch'.fd = ch.fd ∧ ch'.addedToLoop = false := by
  by_cases ha : ch.addedToLoop = true
  · rw [remove, if_pos ha]
    exact ⟨_, deref_put_self h _, rfl, rfl⟩
  · rw [remove, if_neg ha]
    exact ⟨ch, h, rfl, by simpa using ha⟩

theorem deref_remove_ne (h : d ≠ c) : (s.remove c ch).deref d = s.deref d := by
  unfold remove
  split
  · exact deref_put_ne h _
  · rfl

theorem deref_destroy_self (h : s.deref c = some ch) : (s.destroy c ch).deref c = none := by
  obtain ⟨ch', hch', -, -⟩ := deref_remove_self h
  exact deref_put_self hch' _

theorem deref_destroy_ne (h : d ≠ c) : (s.destroy c ch).deref d = s.deref d :=
  (deref_put_ne h _).trans (deref_remove_ne h)

end PollState

open PollState

theorem channelMachine_cases (h : channelMachine.step s i = some s') :
    (∃ fd, i = .construct fd ∧ s' = s.construct fd) ∨
    (∃ c ch events, i.removed = none ∧ s.deref c = some ch ∧ s' = s.update c ch events) ∨
    (∃ c ch, i = .remove c ∧ s.deref c = some ch ∧ s' = s.remove c ch) ∨
    (∃ c ch, i = .destroy c ∧ s.deref c = some ch ∧ s' = s.destroy c ch) := by
  cases i with
  | construct fd => exact .inl ⟨fd, rfl, (Option.some.inj h).symm⟩
  | enableReading c | enableWriting c | disableReading c | disableWriting c | disableAll c =>
    obtain ⟨ch, hch, rfl⟩ := Option.map_eq_some_iff.mp h
    exact .inr (.inl ⟨c, ch, _, rfl, hch, rfl⟩)
  | remove c =>
    obtain ⟨ch, hch, rfl⟩ := Option.map_eq_some_iff.mp h
    exact .inr (.inr (.inl ⟨c, ch, rfl, hch, rfl⟩))
  | destroy c =>
    obtain ⟨ch, hch, rfl⟩ := Option.map_eq_some_iff.mp h
    exact .inr (.inr (.inr ⟨c, ch, rfl, hch, rfl⟩))

/-! ## What holds of every run -/

/-- A channel of `channels_` is alive, added, and under its own descriptor. -/
def Registered (s : PollState) : Prop :=
  ∀ fd c, s.poller.channels.lookup fd = some c →
    ∃ ch, s.deref c = some ch ∧ ch.fd = fd ∧ ch.addedToLoop = true

theorem Registered.entry (hR : Registered s) (hc : s.deref c = some ch)
    (h : s.poller.channels.lookup fd = some c) : ch.fd = fd ∧ ch.addedToLoop = true := by
  obtain ⟨ch', hch', hrest⟩ := hR fd c h
  cases hc.symm.trans hch'
  exact hrest

theorem registered_init : Registered channelMachine.init := fun _ _ h => by cases h

theorem registered_update (hR : Registered s) (hc : s.deref c = some ch) (events : BitVec 32) :
    Registered (s.update c ch events) := by
  intro fd d hd
  rw [lookup_update] at hd
  by_cases hdc : d = c
  · subst hdc
    refine ⟨_, deref_update_self hc events, ?_, rfl⟩
    split at hd
    · next h => exact h.1.symm
    · exact (hR.entry hc hd).1
  · rw [deref_update_ne hdc]
    split at hd
    · cases hd
      exact absurd rfl hdc
    · exact hR fd d hd

theorem not_lookup_remove (hR : Registered s) (hc : s.deref c = some ch) (fd : Int) :
    (s.remove c ch).poller.channels.lookup fd ≠ some c := by
  intro h
  rw [lookup_remove] at h
  split at h
  · cases h
  · next hne =>
    obtain ⟨hfd, hadd⟩ := hR.entry hc h
    exact hne ⟨hadd, hfd.symm⟩

theorem lookup_of_remove (h : (s.remove c ch).poller.channels.lookup fd = some d) :
    s.poller.channels.lookup fd = some d := by
  rw [lookup_remove] at h
  split at h
  · cases h
  · exact h

theorem registered_remove (hR : Registered s) (hc : s.deref c = some ch) :
    Registered (s.remove c ch) := by
  intro fd d hd
  have hdc : d ≠ c := fun he => not_lookup_remove hR hc fd (he ▸ hd)
  rw [deref_remove_ne hdc]
  exact hR fd d (lookup_of_remove hd)

theorem registered_destroy (hR : Registered s) (hc : s.deref c = some ch) :
    Registered (s.destroy c ch) := by
  intro fd d hd
  have hdc : d ≠ c := fun he => not_lookup_remove hR hc fd (he ▸ hd)
  rw [deref_destroy_ne hdc]
  exact hR fd d (lookup_of_remove hd)

theorem kept_registered : channelMachine.Kept Registered := by
  intro s s' i hR h
  obtain ⟨fd, -, rfl⟩ | ⟨c, ch, events, -, hc, rfl⟩ | ⟨c, ch, -, hc, rfl⟩ | ⟨c, ch, -, hc, rfl⟩ :=
    channelMachine_cases h
  · intro fd' d hd
    obtain ⟨ch, hch, hrest⟩ := hR fd' d hd
    exact ⟨ch, deref_construct hch, hrest⟩
  · exact registered_update hR hc events
  · exact registered_remove hR hc
  · exact registered_destroy hR hc

/-! ## The two containers -/

/-- `channel_list_` holds the channels of `channels_`, each once, and all are alive. -/
structure Intact (s : PollState) : Prop where
  nodup : s.poller.channelList.Nodup
  mem : ∀ c, c ∈ s.poller.channelList ↔ ∃ fd, s.poller.channels.lookup fd = some c
  live : ∀ c ∈ s.poller.channelList, (s.deref c).isSome

/-- After the call, the channel it takes out is in neither container. -/
def TakesOut (s : PollState) (i : ChannelCall) : Prop :=
  ∀ s', channelMachine.step s i = some s' → ∀ c, i.removed = some c →
    c ∉ s'.poller.channelList ∧ ∀ fd, s'.poller.channels.lookup fd ≠ some c

/-- An added channel is taken out only when no other is registered for its descriptor. -/
def SoleOnFd (s : PollState) (i : ChannelCall) : Prop :=
  ∀ c ch, i.removed = some c → s.deref c = some ch → ch.addedToLoop = true →
    ∀ d, s.poller.channels.lookup ch.fd = some d → d = c

theorem soleOnFd_of_none (hi : i.removed = none) : SoleOnFd s i := fun _ _ hi' => by
  cases hi.symm.trans hi'

theorem intact_init : Intact channelMachine.init :=
  ⟨.nil, fun c => by simp [channelMachine], by simp [channelMachine]⟩

theorem intact_construct (hI : Intact s) : Intact (s.construct fd) := by
  refine ⟨hI.nodup, hI.mem, fun c hc => ?_⟩
  obtain ⟨ch, hch⟩ := Option.isSome_iff_exists.mp (hI.live c hc)
  rw [deref_construct hch]
  rfl

theorem intact_update (hR : Registered s) (hI : Intact s) (hc : s.deref c = some ch)
    (events : BitVec 32) : Intact (s.update c ch events) := by
  have hlive : ∀ d, (s.deref d).isSome → ((s.update c ch events).deref d).isSome := by
    intro d hd
    by_cases hdc : d = c
    · rw [hdc, deref_update_self hc]
      rfl
    · rwa [deref_update_ne hdc]
  by_cases hn : s.poller.channels.lookup ch.fd = none
  · have hnew : c ∉ s.poller.channelList := by
      intro hmem
      obtain ⟨fd, hfd⟩ := (hI.mem c).mp hmem
      obtain ⟨rfl, -⟩ := hR.entry hc hfd
      rw [hn] at hfd
      cases hfd
    refine ⟨?_, fun d => ?_, fun d hd => ?_⟩
    · rw [channelList_update, if_pos hn]
      simpa using hI.nodup.concat hnew
    · rw [channelList_update, if_pos hn, List.mem_append, List.mem_singleton, hI.mem d]
      constructor
      · rintro (⟨fd, hfd⟩ | rfl)
        · refine ⟨fd, ?_⟩
          rw [lookup_update, if_neg, hfd]
          rintro ⟨rfl, -⟩
          rw [hn] at hfd
          cases hfd
        · exact ⟨ch.fd, by rw [lookup_update, if_pos ⟨rfl, hn⟩]⟩
      · rintro ⟨fd, hfd⟩
        rw [lookup_update] at hfd
        split at hfd
        · exact .inr (Option.some.inj hfd).symm
        · exact .inl ⟨fd, hfd⟩
    · rw [channelList_update, if_pos hn, List.mem_append, List.mem_singleton] at hd
      rcases hd with hd | rfl
      · exact hlive d (hI.live d hd)
      · exact hlive d (by rw [hc]; rfl)
  · refine ⟨?_, fun d => ?_, fun d hd => ?_⟩
    · rw [channelList_update, if_neg hn]
      exact hI.nodup
    · simp only [channelList_update, lookup_update, hn, and_false, if_false]
      exact hI.mem d
    · rw [channelList_update, if_neg hn] at hd
      exact hlive d (hI.live d hd)

/-- Taking the channel `c` out keeps the containers in step when its descriptor is its own. -/
theorem intact_remove (hR : Registered s) (hI : Intact s) (hc : s.deref c = some ch)
    (hsole : ch.addedToLoop = true → ∀ d, s.poller.channels.lookup ch.fd = some d → d = c) :
    Intact (s.remove c ch) := by
  have hout : ∀ d, d ∈ (s.remove c ch).poller.channelList ↔ d ∈ s.poller.channelList ∧ d ≠ c := by
    intro d
    have hself : c ∈ s.poller.channelList →
        ch.addedToLoop = true ∧ s.poller.channels.lookup ch.fd ≠ none := by
      intro hmem
      obtain ⟨fd, hfd⟩ := (hI.mem c).mp hmem
      obtain ⟨rfl, hadd⟩ := hR.entry hc hfd
      exact ⟨hadd, by simp [hfd]⟩
    rw [channelList_remove]
    split
    · simp
    · next hne => exact ⟨fun hd => ⟨hd, fun he => hne (hself (he ▸ hd))⟩, And.left⟩
  refine ⟨?_, fun d => ?_, fun d hd => ?_⟩
  · rw [channelList_remove]
    split
    · exact hI.nodup.filter _
    · exact hI.nodup
  · rw [hout, hI.mem]
    constructor
    · rintro ⟨⟨fd, hfd⟩, hdc⟩
      refine ⟨fd, ?_⟩
      rw [lookup_remove, if_neg, hfd]
      rintro ⟨hadd, rfl⟩
      exact hdc (hsole hadd d hfd)
    · rintro ⟨fd, hfd⟩
      exact ⟨⟨fd, lookup_of_remove hfd⟩, fun he => not_lookup_remove hR hc fd (he ▸ hfd)⟩
  · obtain ⟨hd, hdc⟩ := (hout d).mp hd
    rw [deref_remove_ne hdc]
    exact hI.live d hd

/-- Taking it out through the entry of another channel leaves that one in the list alone. -/
theorem not_intact_remove (hR : Registered s) (hI : Intact s) (hadd : ch.addedToLoop = true)
    (hd : s.poller.channels.lookup ch.fd = some d) (hdc : d ≠ c) :
    d ∈ (s.remove c ch).poller.channelList ∧
      ∀ fd, (s.remove c ch).poller.channels.lookup fd ≠ some d := by
  constructor
  · rw [channelList_remove, if_pos ⟨hadd, by simp [hd]⟩]
    simpa [hdc] using (hI.mem d).mpr ⟨ch.fd, hd⟩
  · intro fd hfd
    have hold := lookup_of_remove hfd
    obtain ⟨chd, hchd, rfl, -⟩ := hR fd d hold
    rw [lookup_remove, if_pos ⟨hadd, (hR.entry hchd hd).1⟩] at hfd
    cases hfd

theorem intact_destroy_iff (hc : s.deref c = some ch) (hR : Registered s) :
    Intact (s.destroy c ch) ↔ Intact (s.remove c ch) := by
  have hlive : Intact (s.remove c ch) →
      ∀ d ∈ (s.remove c ch).poller.channelList, ((s.destroy c ch).deref d).isSome := by
    intro hI d hd
    have hdc : d ≠ c := by
      rintro rfl
      obtain ⟨fd, hfd⟩ := (hI.mem d).mp hd
      exact not_lookup_remove hR hc fd hfd
    rw [deref_destroy_ne hdc, ← deref_remove_ne hdc]
    exact hI.live d hd
  constructor
  · intro hI
    refine ⟨hI.nodup, hI.mem, fun d hd => ?_⟩
    have h := hI.live d hd
    by_cases hdc : d = c
    · rw [hdc, deref_destroy_self hc] at h
      cases h
    · rwa [deref_remove_ne hdc, ← deref_destroy_ne hdc]
  · intro hI
    exact ⟨hI.nodup, hI.mem, hlive hI⟩

theorem intact_remove_iff (hR : Registered s) (hI : Intact s) (hc : s.deref c = some ch) :
    Intact (s.remove c ch) ↔
      (ch.addedToLoop = true → ∀ d, s.poller.channels.lookup ch.fd = some d → d = c) := by
  constructor
  · intro hI' hadd d hd
    by_contra hdc
    obtain ⟨hmem, hno⟩ := not_intact_remove hR hI hadd hd hdc
    obtain ⟨fd, hfd⟩ := (hI'.mem d).mp hmem
    exact hno fd hfd
  · exact intact_remove hR hI hc

/-- The step lemma: one call keeps the containers in step exactly when it meets `SoleOnFd`. -/
theorem intact_step_iff (hR : Registered s) (hI : Intact s)
    (h : channelMachine.step s i = some s') : Intact s' ↔ SoleOnFd s i := by
  have hsole : ∀ {c ch}, i.removed = some c → s.deref c = some ch →
      (SoleOnFd s i ↔ (ch.addedToLoop = true →
        ∀ d, s.poller.channels.lookup ch.fd = some d → d = c)) := by
    intro c ch hi hc
    constructor
    · intro h hadd d hd
      exact h c ch hi hc hadd d hd
    · rintro h c' ch' hi' hc' hadd d hd
      cases hi.symm.trans hi'
      cases hc.symm.trans hc'
      exact h hadd d hd
  obtain ⟨fd, rfl, rfl⟩ | ⟨c, ch, events, hi, hc, rfl⟩ | ⟨c, ch, rfl, hc, rfl⟩ |
    ⟨c, ch, rfl, hc, rfl⟩ := channelMachine_cases h
  · exact iff_of_true (intact_construct hI) (soleOnFd_of_none rfl)
  · exact iff_of_true (intact_update hR hI hc events) (soleOnFd_of_none hi)
  · exact (intact_remove_iff hR hI hc).trans (hsole rfl hc).symm
  · exact ((intact_destroy_iff hc hR).trans (intact_remove_iff hR hI hc)).trans (hsole rfl hc).symm

theorem takesOut_of_intact (hR : Registered s)
    (hI : ∀ s', channelMachine.step s i = some s' → Intact s') : TakesOut s i := by
  intro s' h c hi
  have hI' := hI s' h
  have hout : ∀ fd, s'.poller.channels.lookup fd ≠ some c := by
    obtain ⟨fd, rfl, rfl⟩ | ⟨c', ch, events, hn, hc, rfl⟩ | ⟨c', ch, rfl, hc, rfl⟩ |
      ⟨c', ch, rfl, hc, rfl⟩ := channelMachine_cases h
    · cases hi
    · cases hn.symm.trans hi
    · cases hi
      exact not_lookup_remove hR hc
    · cases hi
      exact not_lookup_remove hR hc
  refine ⟨fun hmem => ?_, hout⟩
  obtain ⟨fd, hfd⟩ := (hI'.mem c).mp hmem
  exact hout fd hfd

/-! ## `poll` -/

theorem watch_isSome : ∀ {cs : List Nat} {sets : PollState.FdSets} {maxFd : Int},
    (∀ c ∈ cs, (s.deref c).isSome) → (s.watch cs sets maxFd).isSome
  | [], _, _, _ => rfl
  | c :: cs, _, _, h => by
    obtain ⟨hc, hcs⟩ := List.forall_mem_cons.mp h
    obtain ⟨ch, hch⟩ := Option.isSome_iff_exists.mp hc
    rw [watch, hch]
    exact watch_isSome hcs

theorem scan_isSome {sets : PollState.FdSets} :
    ∀ {cs : List Nat} {n : Int} {s : PollState} {active : List Nat},
      (∀ c ∈ cs, (s.deref c).isSome) → (scan sets cs n s active).isSome
  | [], _, _, _, _ => rfl
  | c :: cs, n, s, active, h => by
    obtain ⟨hc, hcs⟩ := List.forall_mem_cons.mp h
    obtain ⟨ch, hch⟩ := Option.isSome_iff_exists.mp hc
    simp only [scan, hch]
    split
    · exact scan_isSome hcs
    · split
      · rfl
      · refine scan_isSome fun d hd => ?_
        by_cases hdc : d = c
        · rw [hdc, deref_put_self hch]
          rfl
        · rw [deref_put_ne hdc]
          exact hcs d hd

theorem Intact.poll_isSome (hR : Registered s) (hI : Intact s)
    (select : Int → PollState.FdSets → PollState.FdSets × Int) : (s.poll select).isSome := by
  have hvalues : ∀ c ∈ s.poller.channels.entries.map Sigma.snd, (s.deref c).isSome := by
    intro c hc
    obtain ⟨⟨fd, c⟩, he, rfl⟩ := List.mem_map.mp hc
    obtain ⟨ch, hch, -⟩ := hR fd c (AList.mem_lookup_iff.mpr he)
    rw [hch]
    rfl
  have hwatch : (s.watch (s.poller.channels.entries.map Sigma.snd) {} 0).isSome :=
    watch_isSome hvalues
  obtain ⟨⟨sets, maxFd⟩, hw⟩ := Option.isSome_iff_exists.mp hwatch
  simp only [poll, rebuildFds, hw, Option.map_some]
  split
  · rfl
  · exact scan_isSome hI.live

/-- **The poller's containers.** They stay in step, every channel taken out is out of both
and `poll` reads live channels only, exactly as long as no added channel is taken out
while another is registered for its descriptor. -/
theorem channels_intact_iff {calls : List ChannelCall} (h : channelMachine.run calls = some s) :
    (channelMachine.Always (fun s => Intact s ∧ ∀ select, (s.poll select).isSome) calls ∧
        channelMachine.Each TakesOut calls) ↔
      channelMachine.Each SoleOnFd calls := by
  have hpoll : channelMachine.Always (fun s => Intact s ∧ ∀ select, (s.poll select).isSome) calls ↔
      channelMachine.Always Intact calls :=
    Machine.always_congr registered_init kept_registered
      (fun hR => ⟨And.left, fun hI => ⟨hI, hI.poll_isSome hR⟩⟩) calls
  have hiff : channelMachine.Always Intact calls ↔ channelMachine.Each SoleOnFd calls :=
    Machine.always_iff_each registered_init intact_init kept_registered intact_step_iff h
  rw [hpoll, hiff]
  constructor
  · exact And.left
  · intro hE
    exact ⟨hE, Machine.each_of_always registered_init kept_registered takesOut_of_intact
      (hiff.mpr hE)⟩

/-- A channel that is destroyed before its descriptor is used again. -/
theorem channels_intact_reuse :
    channelMachine.Always (fun s => Intact s ∧ ∀ select, (s.poll select).isSome)
        [.construct 5, .enableReading 0, .destroy 0, .construct 5, .enableWriting 1] ∧
      channelMachine.Each TakesOut
        [.construct 5, .enableReading 0, .destroy 0, .construct 5, .enableWriting 1] := by
  refine (channels_intact_iff rfl).mpr ⟨soleOnFd_of_none rfl, fun s hs => ?_⟩
  cases hs
  refine ⟨soleOnFd_of_none rfl, fun s hs => ?_⟩
  cases hs
  refine ⟨fun c ch hi hc _ d hd => ?_, fun s hs => ?_⟩
  · cases hi
    cases hc
    exact (Option.some.inj hd).symm
  · cases hs
    refine ⟨soleOnFd_of_none rfl, fun s hs => ?_⟩
    cases hs
    exact ⟨soleOnFd_of_none rfl, fun _ _ => trivial⟩

/-- Two channels on descriptor 5, the second never registered. Destroying the second and then
the first leaves a pointer to the first in `channel_list_`, and the next `poll` that finds
descriptor 6 readable reads it. -/
theorem channels_dangle :
    ∃ s, channelMachine.run [.construct 5, .enableReading 0, .construct 5, .enableReading 1,
        .destroy 1, .destroy 0, .construct 6, .enableReading 2] = some s ∧
      s.poller.channelList = [0, 2] ∧ s.poller.channels.lookup 5 = none ∧ s.deref 0 = none ∧
      ¬ Intact s ∧ s.poll (fun _ sets => ({ sets with except := [] }, 1)) = none := by
  refine ⟨_, rfl, rfl, rfl, rfl, fun hI => ?_, rfl⟩
  exact absurd (hI.live 0 (by decide)) (by decide)

end Hound.Reactor
