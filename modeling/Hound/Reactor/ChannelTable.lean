import Hound.Reactor.PollReady

/-!
# The poller as a table

An owner that keeps one channel for a descriptor, registers it at once and destroys it when it is
done needs no more of channels and poller than a table: which channel a descriptor has
and what it is asked for. `Represents s t` says that `s` represents the table `t`. A new channel,
`disable_all` and a destructor change one entry; `poll` changes none, and reports
channels of the table.
-/

namespace Hound.Reactor

open Hound.Lib PollState

/-- For a descriptor its channel, and the events it watches. -/
abbrev ChannelTable := Int → Option (Nat × BitVec 32)

/-- Every channel is alive exactly if it has its entry in the table, and registered. -/
structure Represents (s : PollState) (t : ChannelTable) : Prop where
  entry : ∀ {fd c events}, t fd = some (c, events) ↔
    ∃ ch, s.deref c = some ch ∧ ch.fd = fd ∧ ch.events = events
  lookup : ∀ fd, s.poller.channels.lookup fd = (t fd).map Prod.fst
  added : ∀ {c ch}, s.deref c = some ch → ch.addedToLoop = true
  intact : Intact s

variable {s s' : PollState} {t : ChannelTable} {c d : Nat} {ch : Channel} {fd : Int}
  {events : BitVec 32}

namespace Represents

theorem registered (h : Represents s t) : Registered s := by
  intro fd c hc
  rw [h.lookup, Option.map_eq_some_iff] at hc
  obtain ⟨⟨c, events⟩, ht, rfl⟩ := hc
  obtain ⟨ch, hch, hfd, -⟩ := h.entry.mp ht
  exact ⟨ch, hch, hfd, h.added hch⟩

theorem of_deref (h : Represents s t) (hc : s.deref c = some ch) : t ch.fd = some (c, ch.events) :=
  h.entry.mpr ⟨ch, hc, rfl, rfl⟩

theorem lookup_self (h : Represents s t) (hc : s.deref c = some ch) :
    s.poller.channels.lookup ch.fd = some c := by
  rw [h.lookup, h.of_deref hc, Option.map_some]

theorem isSome_deref (h : Represents s t) (ht : t fd = some (c, events)) : (s.deref c).isSome := by
  obtain ⟨ch, hc, -⟩ := h.entry.mp ht
  rw [hc]
  rfl

theorem update (h : Represents s t) (hc : s.deref c = some ch) (events : BitVec 32) :
    Represents (s.update c ch events) (Function.update t ch.fd (some (c, events))) := by
  have hself := h.lookup_self hc
  have hlookup (fd : Int) : (s.update c ch events).poller.channels.lookup fd =
      s.poller.channels.lookup fd := by
    rw [lookup_update, hself, if_neg fun hn => Option.some_ne_none _ hn.2]
  refine ⟨fun {fd d events'} => ?_, fun fd => ?_, fun {d chd} hd => ?_,
    intact_update h.registered h.intact hc events⟩
  · by_cases hfd : fd = ch.fd
    · subst hfd
      rw [Function.update_self, Option.some.injEq, Prod.mk.injEq]
      constructor
      · rintro ⟨rfl, rfl⟩
        exact ⟨_, deref_update_self hc events, rfl, rfl⟩
      · rintro ⟨chd, hd, hfd, rfl⟩
        by_cases hdc : d = c
        · subst hdc
          rw [deref_update_self hc, Option.some.injEq] at hd
          exact ⟨rfl, by rw [← hd]⟩
        · rw [deref_update_ne hdc] at hd
          have hother := h.of_deref hd
          rw [hfd, h.of_deref hc, Option.some.injEq, Prod.mk.injEq] at hother
          exact absurd hother.1.symm hdc
    · rw [Function.update_of_ne hfd, h.entry]
      refine exists_congr fun chd => and_congr_left fun hchd => ?_
      by_cases hdc : d = c
      · subst hdc
        rw [deref_update_self hc, hc, Option.some.injEq, Option.some.injEq]
        constructor
        · rintro rfl
          exact absurd hchd.1.symm hfd
        · rintro rfl
          exact absurd hchd.1.symm hfd
      · rw [deref_update_ne hdc]
  · rw [hlookup, h.lookup]
    by_cases hfd : fd = ch.fd
    · subst hfd
      rw [Function.update_self, h.of_deref hc]
      rfl
    · rw [Function.update_of_ne hfd]
  · by_cases hdc : d = c
    · subst hdc
      rw [deref_update_self hc, Option.some.injEq] at hd
      rw [← hd]
    · rw [deref_update_ne hdc] at hd
      exact h.added hd

theorem destroy (h : Represents s t) (hc : s.deref c = some ch) :
    Represents (s.destroy c ch) (Function.update t ch.fd none) := by
  have hadded := h.added hc
  have hself := h.lookup_self hc
  have hintact : Intact (s.destroy c ch) := by
    rw [intact_destroy_iff hc h.registered]
    refine intact_remove h.registered h.intact hc fun _ d hd => ?_
    exact Option.some.inj (hd.symm.trans hself)
  refine ⟨fun {fd d events} => ?_, fun fd => ?_, fun {d chd} hd => ?_, hintact⟩
  · by_cases hfd : fd = ch.fd
    · subst hfd
      rw [Function.update_self]
      refine iff_of_false nofun ?_
      rintro ⟨chd, hd, hfd, -⟩
      by_cases hdc : d = c
      · subst hdc
        rw [deref_destroy_self hc] at hd
        cases hd
      · rw [deref_destroy_ne hdc] at hd
        have hother := h.of_deref hd
        rw [hfd, h.of_deref hc, Option.some.injEq, Prod.mk.injEq] at hother
        exact hdc hother.1.symm
    · rw [Function.update_of_ne hfd, h.entry]
      refine exists_congr fun chd => and_congr_left fun hchd => ?_
      by_cases hdc : d = c
      · subst hdc
        rw [deref_destroy_self hc, hc]
        refine iff_of_false ?_ nofun
        rintro ⟨⟩
        exact hfd hchd.1.symm
      · rw [deref_destroy_ne hdc]
  · rw [show (s.destroy c ch).poller.channels.lookup fd = _ from lookup_remove, h.lookup]
    by_cases hfd : fd = ch.fd
    · rw [if_pos ⟨hadded, hfd⟩, hfd, Function.update_self]
      rfl
    · rw [if_neg fun hn => hfd hn.2, Function.update_of_ne hfd]
  · by_cases hdc : d = c
    · subst hdc
      rw [deref_destroy_self hc] at hd
      cases hd
    · rw [deref_destroy_ne hdc] at hd
      exact h.added hd

/-! ## A new channel -/

theorem deref_construct_ne (hd : d ≠ s.heap.length) : (s.construct fd).deref d = s.deref d := by
  rw [deref, deref, construct, List.getD_eq_getElem?_getD, List.getD_eq_getElem?_getD,
    List.getElem?_append]
  split
  · rfl
  · next hlt =>
    rw [List.getElem?_eq_none (Nat.le_of_not_lt hlt), List.getElem?_eq_none]
    simp only [List.length_singleton]
    omega

/-- `Channel(loop, fd)` and `enable_reading` for a descriptor without a channel. -/
theorem construct (h : Represents s t) (hfd : t fd = none) :
    Represents ((s.construct fd).enableReading s.heap.length { fd })
      (Function.update t fd (some (s.heap.length, kReadEvent))) := by
  have hc : (s.construct fd).deref s.heap.length = some { fd } := deref_construct_self
  have hnone : s.poller.channels.lookup fd = none := by rw [h.lookup, hfd]; rfl
  have hR : Registered (s.construct fd) := by
    intro fd' d hd
    obtain ⟨ch, hch, hrest⟩ := h.registered fd' d hd
    exact ⟨ch, deref_construct hch, hrest⟩
  -- the channels that were there before are not the new one
  have hold {d : Nat} {chd : Channel} (hd : s.deref d = some chd) : d ≠ s.heap.length ∧
      chd.fd ≠ fd := by
    refine ⟨Nat.ne_of_lt (lt_of_deref hd), ?_⟩
    rintro rfl
    rw [h.of_deref hd] at hfd
    cases hfd
  have hderef {d : Nat} (hd : d ≠ s.heap.length) :
      ((s.construct fd).enableReading s.heap.length { fd }).deref d = s.deref d :=
    (deref_update_ne hd _).trans (deref_construct_ne hd)
  have hself : ((s.construct fd).enableReading s.heap.length { fd }).deref s.heap.length =
      some { fd, events := kReadEvent, addedToLoop := true, index := 0 } :=
    (deref_update_self hc (kNoneEvent ||| kReadEvent)).trans rfl
  refine ⟨fun {fd' d events} => ?_, fun fd' => ?_, fun {d chd} hd => ?_,
    intact_update hR (intact_construct h.intact) hc _⟩
  · by_cases hd : d = s.heap.length
    · subst hd
      rw [hself]
      constructor
      · intro ht
        by_cases hfd' : fd' = fd
        · subst hfd'
          rw [Function.update_self, Option.some.injEq, Prod.mk.injEq] at ht
          exact ⟨_, rfl, rfl, ht.2⟩
        · rw [Function.update_of_ne hfd'] at ht
          obtain ⟨chd, hchd, -⟩ := h.entry.mp ht
          exact absurd rfl (hold hchd).1
      · rintro ⟨chd, hchd, rfl, rfl⟩
        cases hchd
        exact Function.update_self ..
    · rw [hderef hd]
      by_cases hfd' : fd' = fd
      · subst hfd'
        rw [Function.update_self]
        refine iff_of_false (fun he => hd (by cases he; rfl)) ?_
        rintro ⟨chd, hchd, hfd', -⟩
        exact (hold hchd).2 hfd'
      · rw [Function.update_of_ne hfd']
        exact h.entry
  · rw [show ((s.construct fd).enableReading s.heap.length { fd }).poller.channels.lookup fd' = _
      from lookup_update _]
    change (if fd' = fd ∧ s.poller.channels.lookup fd = none then some s.heap.length
      else s.poller.channels.lookup fd') = _
    by_cases hfd' : fd' = fd
    · rw [if_pos ⟨hfd', hnone⟩, hfd', Function.update_self]
      rfl
    · rw [if_neg fun hn => hfd' hn.1, Function.update_of_ne hfd', h.lookup]
  · by_cases hdc : d = s.heap.length
    · subst hdc
      rw [hself, Option.some.injEq] at hd
      rw [← hd]
    · rw [hderef hdc] at hd
      exact h.added hd

end Represents

/-! ## `poll` -/

/-- From `s` to `s'` nothing changes but `revents_` of some channels. -/
structure SameBut (s s' : PollState) : Prop where
  poller : s'.poller = s.poller
  length : s'.heap.length = s.heap.length
  deref : ∀ d, ∃ f : Channel → BitVec 32,
    s'.deref d = (s.deref d).map fun ch => { ch with revents := f ch }

theorem SameBut.refl (s : PollState) : SameBut s s :=
  ⟨rfl, rfl, fun d => ⟨Channel.revents, by cases s.deref d <;> rfl⟩⟩

theorem SameBut.trans {s₁ s₂ s₃ : PollState} (h : SameBut s₁ s₂) (h' : SameBut s₂ s₃) :
    SameBut s₁ s₃ := by
  refine ⟨h'.poller.trans h.poller, h'.length.trans h.length, fun d => ?_⟩
  obtain ⟨f, hf⟩ := h.deref d
  obtain ⟨g, hg⟩ := h'.deref d
  refine ⟨fun ch => g { ch with revents := f ch }, ?_⟩
  rw [hg, hf, Option.map_map]
  rfl

theorem SameBut.mark (hc : s.deref c = some ch) (revents : BitVec 32) :
    SameBut s (s.put c (some { ch with revents })) := by
  refine ⟨rfl, List.length_set .., fun d => ?_⟩
  by_cases hdc : d = c
  · subst hdc
    exact ⟨fun _ => revents, by rw [deref_put_self hc, hc]; rfl⟩
  · exact ⟨Channel.revents, by rw [deref_put_ne hdc]; cases s.deref d <;> rfl⟩

theorem SameBut.isSome_deref (h : SameBut s s') (d : Nat) :
    (s'.deref d).isSome = (s.deref d).isSome := by
  obtain ⟨f, hf⟩ := h.deref d
  rw [hf, Option.isSome_map]

theorem scan_sameBut {sets : FdSets} : ∀ {cs : List Nat} {n : Int} {s : PollState}
    {active : List Nat}, (∀ c ∈ cs, (s.deref c).isSome) → ∃ s' found,
      scan sets cs n s active = some (s', active ++ found) ∧ SameBut s s' ∧ found ⊆ cs
  | [], n, s, active, _ => ⟨s, [], by simp [scan], .refl s, List.Subset.refl _⟩
  | c :: cs, n, s, active, hlive => by
    obtain ⟨hc, hrest⟩ := List.forall_mem_cons.mp hlive
    obtain ⟨ch, hch⟩ := Option.isSome_iff_exists.mp hc
    have hmark := SameBut.mark hch (sets.revents ch.fd)
    have hrest' : ∀ d ∈ cs,
        ((s.put c (some { ch with revents := sets.revents ch.fd })).deref d).isSome := by
      intro d hd
      rw [hmark.isSome_deref]
      exact hrest d hd
    rw [scan, hch]
    simp only
    split
    · obtain ⟨s', found, hs', hsame, hsub⟩ := scan_sameBut hrest
      exact ⟨s', found, hs', hsame, List.subset_cons_of_subset c hsub⟩
    · split
      · exact ⟨_, [c], rfl, hmark, by simp⟩
      · obtain ⟨s', found, hs', hsame, hsub⟩ := scan_sameBut hrest'
        refine ⟨s', c :: found, ?_, hmark.trans hsame, List.cons_subset_cons c hsub⟩
        rw [hs', List.append_assoc]
        rfl

theorem Represents.sameBut (h : Represents s t) (hs : SameBut s s') : Represents s' t := by
  have hback {d : Nat} {chd : Channel} (hd : s'.deref d = some chd) : ∃ ch, s.deref d = some ch ∧
      ch.fd = chd.fd ∧ ch.events = chd.events ∧ ch.addedToLoop = chd.addedToLoop := by
    obtain ⟨f, hf⟩ := hs.deref d
    rw [hf, Option.map_eq_some_iff] at hd
    obtain ⟨ch, hch, rfl⟩ := hd
    exact ⟨ch, hch, rfl, rfl, rfl⟩
  refine ⟨fun {fd d events} => h.entry.trans ⟨?_, ?_⟩, fun fd => ?_, fun {d chd} hd => ?_, ?_⟩
  · rintro ⟨ch, hch, rfl, rfl⟩
    obtain ⟨f, hf⟩ := hs.deref d
    rw [hch, Option.map_some] at hf
    exact ⟨_, hf, rfl, rfl⟩
  · rintro ⟨chd, hd, rfl, rfl⟩
    obtain ⟨ch, hch, hfd, hevents, -⟩ := hback hd
    exact ⟨ch, hch, hfd, hevents⟩
  · rw [hs.poller, h.lookup]
  · obtain ⟨ch, hch, -, -, hadded⟩ := hback hd
    rw [← hadded]
    exact h.added hch
  · refine ⟨by rw [hs.poller]; exact h.intact.nodup, fun d => ?_, fun d hd => ?_⟩
    · rw [hs.poller]
      exact h.intact.mem d
    · rw [hs.poller] at hd
      rw [hs.isSome_deref]
      exact h.intact.live d hd

theorem Represents.mem_entries (h : Represents s t) :
    c ∈ s.poller.channels.entries.map Sigma.snd ↔ ∃ fd events, t fd = some (c, events) := by
  constructor
  · intro hc
    obtain ⟨⟨fd, c⟩, he, rfl⟩ := List.mem_map.mp hc
    have hlookup : s.poller.channels.lookup fd = some c := AList.mem_lookup_iff.mpr he
    rw [h.lookup, Option.map_eq_some_iff] at hlookup
    obtain ⟨⟨c, events⟩, ht, rfl⟩ := hlookup
    exact ⟨fd, events, ht⟩
  · rintro ⟨fd, events, ht⟩
    have hlookup : s.poller.channels.lookup fd = some c := by rw [h.lookup, ht, Option.map_some]
    exact List.mem_map.mpr ⟨⟨fd, c⟩, AList.mem_lookup_iff.mp hlookup, rfl⟩

/-- Which descriptors want to be watched for something, by the table. -/
theorem Represents.wants (h : Represents s t) (fd : Int) {f : Channel → Bool} {mask : BitVec 32}
    (hf : ∀ ch : Channel, f ch = true ↔ ch.events &&& mask ≠ 0) :
    s.Wants f (s.poller.channels.entries.map Sigma.snd) fd ↔
      ∃ c events, t fd = some (c, events) ∧ events &&& mask ≠ 0 := by
  constructor
  · rintro ⟨c, -, ch, hch, hch', rfl⟩
    exact ⟨c, ch.events, h.of_deref hch, (hf ch).mp hch'⟩
  · rintro ⟨c, events, ht, hmask⟩
    obtain ⟨ch, hch, hfd, rfl⟩ := h.entry.mp ht
    exact ⟨c, h.mem_entries.mpr ⟨fd, _, ht⟩, ch, hch, (hf ch).mpr hmask, hfd⟩

theorem Represents.watch_isSome (h : Represents s t) : s.rebuildFds.isSome := by
  rw [rebuildFds, Option.isSome_map]
  refine Reactor.watch_isSome fun c hc => ?_
  obtain ⟨fd, events, ht⟩ := h.mem_entries.mp hc
  exact h.isSome_deref ht

theorem Represents.rebuildFds (h : Represents s t) :
    ∃ asked maxFd, s.rebuildFds = some (asked, maxFd) ∧
    (∀ fd, fd ∈ asked.read ↔ ∃ c events, t fd = some (c, events) ∧ events &&& kReadEvent ≠ 0) ∧
    ∀ fd, fd ∈ asked.write ↔ ∃ c events, t fd = some (c, events) ∧ events &&& kWriteEvent ≠ 0 := by
  obtain ⟨⟨asked, maxFd⟩, hasked⟩ := Option.isSome_iff_exists.mp h.watch_isSome
  refine ⟨asked, maxFd, hasked, ?_⟩
  rw [PollState.rebuildFds, Option.map_eq_some_iff] at hasked
  obtain ⟨⟨sets, maxFd'⟩, hwatch, he⟩ := hasked
  cases he
  obtain ⟨hread, hwrite⟩ := watch_spec hwatch
  have hnil (fd : Int) (p : Prop) : fd ∈ ([] : List Int) ∨ p ↔ p := or_iff_right List.not_mem_nil
  constructor
  · intro fd
    have hwants := h.wants fd (f := Channel.isReading) fun _ => decide_eq_true_iff
    exact (hread fd).trans ((hnil fd _).trans hwants)
  · intro fd
    have hwants := h.wants fd (f := Channel.isWriting) fun _ => decide_eq_true_iff
    exact (hwrite fd).trans ((hnil fd _).trans hwants)

theorem watch_except : ∀ {cs : List Nat} {sets sets' : FdSets} {maxFd maxFd' : Int},
    s.watch cs sets maxFd = some (sets', maxFd') →
      ∀ fd, fd ∈ sets'.except ↔ fd ∈ sets.except ∨ s.Wants (fun _ => true) cs fd
  | [], _, _, _, _, h => by
    cases h
    simp [Wants]
  | c :: cs, sets, sets', maxFd, maxFd', h => by
    rw [watch] at h
    cases hc : s.deref c with
    | none =>
      rw [hc] at h
      cases h
    | some ch =>
      rw [hc] at h
      exact fun fd => (watch_except h fd).trans (wants_cons hc (fun _ => true) cs _)

theorem Represents.except {t : ChannelTable} (h : Represents s t) {asked : FdSets} {maxFd : Int}
    (hasked : s.rebuildFds = some (asked, maxFd)) (fd : Int) : fd ∈ asked.except ↔ t fd ≠ none := by
  obtain ⟨⟨sets, maxFd'⟩, hwatch, he⟩ := Option.map_eq_some_iff.mp hasked
  cases he
  refine (watch_except hwatch fd).trans ((or_iff_right List.not_mem_nil).trans ⟨?_, fun hne => ?_⟩)
  · rintro ⟨c, -, ch, hch, -, rfl⟩
    rw [h.of_deref hch]
    exact Option.some_ne_none _
  · obtain ⟨⟨c, events⟩, ht⟩ := Option.ne_none_iff_exists'.mp hne
    obtain ⟨ch, hch, hfd, -⟩ := h.entry.mp ht
    exact ⟨c, h.mem_entries.mpr ⟨fd, events, ht⟩, ch, hch, rfl, hfd⟩

/-- **`poll` on a table**: it succeeds, changes no entry and reports channels of the table. -/
theorem Represents.poll (h : Represents s t) (select : Int → FdSets → FdSets × Int) :
    ∃ s' active, s.poll select = some (s', active) ∧ Represents s' t ∧ SameBut s s' ∧
      ∀ c ∈ active, ∃ fd events, t fd = some (c, events) := by
  obtain ⟨⟨asked, maxFd⟩, hasked⟩ := Option.isSome_iff_exists.mp h.watch_isSome
  obtain ⟨s', found, hscan, hsame, hsub⟩ : ∃ s' found, scan (select maxFd asked).1
      s.poller.channelList (select maxFd asked).2 s [] = some (s', [] ++ found) ∧ SameBut s s' ∧
      found ⊆ s.poller.channelList := scan_sameBut h.intact.live
  rw [PollState.poll, hasked]
  simp only
  split
  · exact ⟨s, [], rfl, h, .refl s, fun c hc => by cases hc⟩
  · refine ⟨s', found, hscan, h.sameBut hsame, hsame, fun c hc => ?_⟩
    obtain ⟨fd, hfd⟩ := (h.intact.mem c).mp (hsub hc)
    rw [h.lookup, Option.map_eq_some_iff] at hfd
    obtain ⟨⟨c, events⟩, ht, rfl⟩ := hfd
    exact ⟨fd, events, ht⟩

end Hound.Reactor
