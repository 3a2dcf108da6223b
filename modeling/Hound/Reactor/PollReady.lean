import Hound.Reactor.Registration
import Mathlib.Data.List.Dedup
import Mathlib.Data.List.GetD

/-!
# What `poll` reports

`pollerMachine` makes the poller's own calls in any order, on channels with pairwise different
descriptors. Its two containers then hold the same channels, each under its own descriptor
(`Filed`), so the scan of `channel_list_` sees what `rebuild_fds` asked for. `select` may
answer with any part of it (`Answers`). Its value counts bits and the scan counts channels down
from it; a reported channel has a bit of its own, so the scan does not stop too early.
-/

namespace Hound.Reactor

open Hound.Lib

/-- The calls on a poller, and what happens to channels in between. -/
inductive PollerCall where
  | construct (fd : Int)
  | setEvents (c : Nat) (events : BitVec 32)
  | updateChannel (c : Nat)
  | removeChannel (c : Nat)
  | destroy (c : Nat)
  deriving DecidableEq

namespace PollState

def unused (s : PollState) (fd : Int) : Bool := s.heap.all fun o => o.map Channel.fd ≠ some fd

def fdOf (s : PollState) (c : Nat) : Option Int := (s.deref c).map Channel.fd

end PollState

/-- A new channel has a descriptor of its own, and a registered one is not destroyed. -/
def pollerMachine : Machine PollState PollerCall where
  init := {}
  step s
    | .construct fd => if s.unused fd then some (s.construct fd) else none
    | .setEvents c events => (s.deref c).map fun ch => s.put c (some { ch with events })
    | .updateChannel c => (s.deref c).map (s.updateChannel c)
    | .removeChannel c => (s.deref c).map (s.removeChannel c)
    | .destroy c => (s.deref c).bind fun ch => if s.hasChannel ch then none else some (s.put c none)

/-- The containers of `p` hold the same channels, each under its own descriptor. -/
structure Filed (fds : Nat → Option Int) (p : SelectPoller) : Prop where
  apart : ∀ {fd c d}, fds c = some fd → fds d = some fd → c = d
  entry : ∀ {fd c}, p.channels.lookup fd = some c → fds c = some fd
  mem : ∀ c, c ∈ p.channelList ↔ ∃ fd, p.channels.lookup fd = some c
  nodup : p.channelList.Nodup

variable {s s' : PollState} {c d : Nat} {ch : Channel} {fd : Int} {fds : Nat → Option Int}
  {p : SelectPoller}

namespace PollState

theorem fdOf_put (h : s.deref c = some ch) (o : Option Channel) :
    (s.put c o).fdOf = Function.update s.fdOf c (o.map Channel.fd) := by
  funext d
  by_cases hd : d = c
  · subst hd
    rw [Function.update_self, fdOf, deref_put_self h]
  · rw [Function.update_of_ne hd, fdOf, deref_put_ne hd, fdOf]

theorem fdOf_put_same (h : s.deref c = some ch) (ch' : Channel) (hfd : ch'.fd = ch.fd) :
    (s.put c (some ch')).fdOf = s.fdOf := by
  rw [fdOf_put h, Option.map_some, hfd, Function.update_eq_self_iff, fdOf, h, Option.map_some]

theorem fdOf_updateChannel (h : s.deref c = some ch) : (s.updateChannel c ch).fdOf = s.fdOf :=
  fdOf_put_same (s := { s with poller := (s.updateChannel c ch).poller }) h _ rfl

theorem fdOf_removeChannel (h : s.deref c = some ch) : (s.removeChannel c ch).fdOf = s.fdOf :=
  fdOf_put_same (s := { s with poller := (s.removeChannel c ch).poller }) h _ rfl

theorem fdOf_construct :
    (s.construct fd).fdOf = Function.update s.fdOf s.heap.length (some fd) := by
  funext d
  by_cases hd : d = s.heap.length
  · subst hd
    rw [Function.update_self, fdOf, deref_construct_self]
    rfl
  · rw [Function.update_of_ne hd, fdOf, fdOf, deref, deref, construct, List.getD_eq_getElem?_getD,
      List.getD_eq_getElem?_getD, List.getElem?_append]
    split
    · rfl
    · next hlt =>
      rw [List.getElem?_eq_none (Nat.le_of_not_lt hlt), List.getElem?_eq_none]
      simp only [List.length_singleton]
      omega

theorem fdOf_ne_of_unused (h : s.unused fd = true) (c : Nat) : s.fdOf c ≠ some fd := by
  intro hc
  obtain ⟨ch, hch, hfd⟩ := Option.map_eq_some_iff.mp hc
  have hlt := lt_of_deref hch
  rw [deref, List.getD_eq_getElem _ _ hlt] at hch
  have hall := List.all_eq_true.mp h _ (List.getElem_mem hlt)
  rw [hch] at hall
  simp [hfd] at hall

end PollState

open PollState

/-! ## The containers -/

theorem Filed.fresh (hF : Filed fds p) (hc : fds c = none) (hfd : ∀ d, fds d ≠ some fd) :
    Filed (Function.update fds c (some fd)) p := by
  have hother : ∀ {d fd'}, fds d = some fd' → Function.update fds c (some fd) d = some fd' := by
    intro d fd' hd
    have hne : d ≠ c := by
      rintro rfl
      rw [hc] at hd
      cases hd
    rw [Function.update_of_ne hne, hd]
  refine ⟨fun {fd' d e} hd he => ?_, fun h => hother (hF.entry h), hF.mem, hF.nodup⟩
  simp only [Function.update_apply] at hd he
  split at hd <;> split at he
  · next h1 h2 => rw [h1, h2]
  · cases hd
    exact absurd he (hfd e)
  · cases he
    exact absurd hd (hfd d)
  · exact hF.apart hd he

theorem Filed.gone (hF : Filed fds p) (hc : ∀ fd, p.channels.lookup fd ≠ some c) :
    Filed (Function.update fds c none) p := by
  have hback : ∀ {d fd'}, Function.update fds c none d = some fd' → fds d = some fd' := by
    intro d fd' hd
    rw [Function.update_apply] at hd
    split at hd
    · cases hd
    · exact hd
  refine ⟨fun hd he => hF.apart (hback hd) (hback he), fun {fd d} h => ?_, hF.mem, hF.nodup⟩
  have hne : d ≠ c := by
    rintro rfl
    exact hc fd h
  rw [Function.update_of_ne hne]
  exact hF.entry h

theorem Filed.added (hF : Filed fds p) (hc : fds c = some fd)
    (hn : p.channels.lookup fd = none) :
    Filed fds { channels := p.channels.insert fd c, channelList := p.channelList ++ [c] } := by
  have hnew : c ∉ p.channelList := by
    intro hmem
    obtain ⟨fd', hfd'⟩ := (hF.mem c).mp hmem
    cases hc.symm.trans (hF.entry hfd')
    cases hn.symm.trans hfd'
  have hlookup : ∀ fd' d, (p.channels.insert fd c).lookup fd' = some d ↔
      fd' = fd ∧ d = c ∨ p.channels.lookup fd' = some d := by
    intro fd' d
    by_cases hfd : fd' = fd
    · subst hfd
      simp [hn, eq_comm]
    · simp [hfd, AList.lookup_insert_ne hfd]
  refine ⟨hF.apart, fun {fd' d} h => ?_, fun d => ?_, by simpa using hF.nodup.concat hnew⟩
  · rcases (hlookup fd' d).mp h with ⟨rfl, rfl⟩ | h
    · exact hc
    · exact hF.entry h
  · rw [List.mem_append, List.mem_singleton, hF.mem]
    constructor
    · rintro (⟨fd', h⟩ | rfl)
      · exact ⟨fd', (hlookup fd' d).mpr (.inr h)⟩
      · exact ⟨fd, (hlookup fd d).mpr (.inl ⟨rfl, rfl⟩)⟩
    · rintro ⟨fd', h⟩
      rcases (hlookup fd' d).mp h with ⟨-, rfl⟩ | h
      · exact .inr rfl
      · exact .inl ⟨fd', h⟩

theorem Filed.removed (hF : Filed fds p) (hc : fds c = some fd) :
    Filed fds { channels := p.channels.erase fd, channelList := p.channelList.filter (· ≠ c) } := by
  have hlookup : ∀ fd' d, (p.channels.erase fd).lookup fd' = some d ↔
      p.channels.lookup fd' = some d ∧ d ≠ c := by
    intro fd' d
    by_cases hfd : fd' = fd
    · subst hfd
      rw [AList.lookup_erase]
      refine iff_of_false nofun fun ⟨h, hne⟩ => hne (hF.apart (hF.entry h) hc)
    · rw [AList.lookup_erase_ne hfd, iff_self_and]
      rintro h rfl
      exact hfd (Option.some.inj ((hF.entry h).symm.trans hc))
  refine ⟨hF.apart, fun {fd' d} h => hF.entry ((hlookup fd' d).mp h).1, fun d => ?_,
    hF.nodup.filter _⟩
  simp only [List.mem_filter, decide_eq_true_eq, hF.mem, hlookup]
  constructor
  · rintro ⟨⟨fd', h⟩, hne⟩
    exact ⟨fd', h, hne⟩
  · rintro ⟨fd', h, hne⟩
    exact ⟨⟨fd', h⟩, hne⟩

/-- The invariant of a run of `pollerMachine`. -/
abbrev PollState.Filed (s : PollState) : Prop := Reactor.Filed s.fdOf s.poller

theorem filed_init : pollerMachine.init.Filed where
  apart h := by cases h
  entry h := by cases h
  mem c := by simp [pollerMachine]
  nodup := .nil

theorem filed_updateChannel (hF : s.Filed) (hc : s.deref c = some ch) :
    (s.updateChannel c ch).Filed := by
  have hfd : s.fdOf c = some ch.fd := by rw [fdOf, hc, Option.map_some]
  unfold PollState.Filed
  rw [fdOf_updateChannel hc]
  show Reactor.Filed s.fdOf (if _ then _ else _)
  split
  · next hn => exact hF.added hfd hn
  · exact hF

theorem filed_removeChannel (hF : s.Filed) (hc : s.deref c = some ch) :
    (s.removeChannel c ch).Filed := by
  have hfd : s.fdOf c = some ch.fd := by rw [fdOf, hc, Option.map_some]
  unfold PollState.Filed
  rw [fdOf_removeChannel hc]
  show Reactor.Filed s.fdOf (if _ then _ else _)
  split
  · exact hF
  · exact hF.removed hfd

theorem kept_filed : pollerMachine.Kept PollState.Filed := by
  intro s s' i hF h
  cases i with
  | construct fd =>
    obtain ⟨hu, rfl⟩ : s.unused fd = true ∧ s.construct fd = s' := by
      simpa [pollerMachine] using h
    have hnew : s.fdOf s.heap.length = none := by simp [fdOf, deref]
    unfold PollState.Filed
    rw [fdOf_construct]
    exact hF.fresh hnew (fdOf_ne_of_unused hu)
  | setEvents c events =>
    obtain ⟨ch, hch, rfl⟩ := Option.map_eq_some_iff.mp h
    unfold PollState.Filed
    rw [fdOf_put_same hch { ch with events } rfl]
    exact hF
  | updateChannel c =>
    obtain ⟨ch, hch, rfl⟩ := Option.map_eq_some_iff.mp h
    exact filed_updateChannel hF hch
  | removeChannel c =>
    obtain ⟨ch, hch, rfl⟩ := Option.map_eq_some_iff.mp h
    exact filed_removeChannel hF hch
  | destroy c =>
    obtain ⟨ch, hch, hgone⟩ := Option.bind_eq_some_iff.mp h
    obtain ⟨hnot, rfl⟩ : s.hasChannel ch = false ∧ s.put c none = s' := by simpa using hgone
    unfold PollState.Filed
    rw [fdOf_put hch]
    refine hF.gone fun fd hfd => ?_
    have hself : s.fdOf c = some ch.fd := by rw [fdOf, hch, Option.map_some]
    cases hself.symm.trans (hF.entry hfd)
    rw [hasChannel, hfd] at hnot
    cases hnot

/-! ## The sets -/

namespace PollState

def FdSets.bits (sets : FdSets) : Nat :=
  sets.read.dedup.length + sets.write.dedup.length + sets.except.dedup.length

/-- What `select` may leave of the sets `asked`, with the value it returns. -/
structure FdSets.Answers (asked given : FdSets) (n : Int) : Prop where
  read : given.read ⊆ asked.read
  write : given.write ⊆ asked.write
  except : given.except ⊆ asked.except
  bits : n = given.bits

theorem FdSets.revents_read {sets : FdSets} :
    sets.revents fd &&& kReadEvent ≠ 0 ↔ fd ∈ sets.read := by
  unfold FdSets.revents
  by_cases fd ∈ sets.read <;> by_cases fd ∈ sets.write <;> by_cases fd ∈ sets.except <;>
    simp [*]

theorem FdSets.revents_write {sets : FdSets} :
    sets.revents fd &&& kWriteEvent ≠ 0 ↔ fd ∈ sets.write := by
  unfold FdSets.revents
  by_cases fd ∈ sets.read <;> by_cases fd ∈ sets.write <;> by_cases fd ∈ sets.except <;>
    simp [*]

theorem FdSets.revents_ne {sets : FdSets} :
    sets.revents fd ≠ kNoneEvent ↔ fd ∈ sets.read ∨ fd ∈ sets.write ∨ fd ∈ sets.except := by
  unfold FdSets.revents
  by_cases fd ∈ sets.read <;> by_cases fd ∈ sets.write <;> by_cases fd ∈ sets.except <;>
    simp [*]

/-- One of the channels `cs` has this descriptor and the interest `f`. -/
def Wants (s : PollState) (f : Channel → Bool) (cs : List Nat) (fd : Int) : Prop :=
  ∃ c ∈ cs, ∃ ch, s.deref c = some ch ∧ f ch = true ∧ ch.fd = fd

theorem wants_cons (hc : s.deref c = some ch) (f : Channel → Bool) (cs : List Nat)
    (fds : List Int) : fd ∈ (if f ch then ch.fd :: fds else fds) ∨ s.Wants f cs fd ↔
      fd ∈ fds ∨ s.Wants f (c :: cs) fd := by
  have hhead : s.Wants f (c :: cs) fd ↔ (f ch = true ∧ ch.fd = fd) ∨ s.Wants f cs fd := by
    simp [Wants, hc]
  rw [hhead, ← or_assoc]
  by_cases hf : f ch = true
  · simp only [hf, if_true, List.mem_cons, true_and, eq_comm (a := fd), or_comm]
  · simp only [hf, if_false, false_and, or_false, Bool.false_eq_true]

/-- `rebuild_fds` asks to read for the channels that are reading, and to write likewise. -/
theorem watch_spec : ∀ {cs : List Nat} {sets sets' : FdSets} {maxFd maxFd' : Int},
    s.watch cs sets maxFd = some (sets', maxFd') →
      (∀ fd, fd ∈ sets'.read ↔ fd ∈ sets.read ∨ s.Wants Channel.isReading cs fd) ∧
      ∀ fd, fd ∈ sets'.write ↔ fd ∈ sets.write ∨ s.Wants Channel.isWriting cs fd
  | [], _, _, _, _, h => by
    cases h
    simp [Wants]
  | c :: cs, sets, sets', maxFd, maxFd', h => by
    rw [watch] at h
    cases hc : s.deref c with
    | none =>
      rw [hc] at h
      cases h
    | some ch =>
      rw [hc] at h
      obtain ⟨hread, hwrite⟩ := watch_spec h
      exact ⟨fun fd => (hread fd).trans (wants_cons hc _ cs _),
        fun fd => (hwrite fd).trans (wants_cons hc _ cs _)⟩

/-! ## The scan -/

/-- The channel is alive, and the sets have a bit for it. -/
def ready (s : PollState) (sets : FdSets) (c : Nat) : Bool :=
  (s.fdOf c).any fun fd => sets.revents fd ≠ kNoneEvent

theorem ready_eq (hc : s.deref c = some ch) (sets : FdSets) :
    s.ready sets c = decide (sets.revents ch.fd ≠ kNoneEvent) := by
  rw [ready, fdOf, hc]
  rfl

/-- From `s` to `s'`, the channels of `l` get the events of the sets, and no other changes. -/
def Marked (s s' : PollState) (sets : FdSets) (l : List Nat) : Prop :=
  ∀ c ch, s.deref c = some ch →
    s'.deref c = some (if c ∈ l then { ch with revents := sets.revents ch.fd } else ch)

theorem Marked.cons {sets : FdSets} {l : List Nat} (hc : s.deref c = some ch) (hnot : c ∉ l)
    (h : Marked (s.put c (some { ch with revents := sets.revents ch.fd })) s' sets l) :
    Marked s s' sets (c :: l) := by
  intro d chd hd
  by_cases hdc : d = c
  · subst hdc
    cases hc.symm.trans hd
    rw [h d _ (deref_put_self hd _), if_neg hnot, if_pos List.mem_cons_self]
  · rw [h d chd ((deref_put_ne hdc _).trans hd)]
    simp only [List.mem_cons, hdc, false_or]

/-- The scan finds every channel with a bit if the count it starts with is not too small. -/
theorem scan_spec {sets : FdSets} : ∀ {cs : List Nat} {n : Int} {s : PollState} {active : List Nat},
    cs.Nodup → (∀ c ∈ cs, (s.deref c).isSome) → (cs.countP (s.ready sets) : Int) ≤ n →
      ∃ s', scan sets cs n s active = some (s', active ++ cs.filter (s.ready sets)) ∧
        Marked s s' sets (cs.filter (s.ready sets))
  | [], n, s, active, _, _, _ => ⟨s, by simp [scan], fun c ch h => by simpa using h⟩
  | c :: cs, n, s, active, hnodup, hlive, hcount => by
    obtain ⟨hnot, hcs⟩ := List.nodup_cons.mp hnodup
    obtain ⟨hc, hrest⟩ := List.forall_mem_cons.mp hlive
    obtain ⟨ch, hch⟩ := Option.isSome_iff_exists.mp hc
    by_cases hr : sets.revents ch.fd = kNoneEvent
    · have hno : ¬ s.ready sets c = true := by
        rw [ready_eq hch, decide_eq_true_eq]
        exact not_not_intro hr
      rw [List.countP_cons_of_neg hno] at hcount
      rw [List.filter_cons_of_neg hno, scan, hch]
      simp only
      rw [if_pos hr]
      exact scan_spec hcs hrest hcount
    · have hyes : s.ready sets c = true := by
        rw [ready_eq hch]
        exact decide_eq_true hr
      rw [List.countP_cons_of_pos hyes] at hcount
      rw [List.filter_cons_of_pos hyes, scan, hch]
      simp only
      rw [if_neg hr]
      -- marking `c` leaves the others as they are
      let t := s.put c (some { ch with revents := sets.revents ch.fd })
      have hsame : t.ready sets = s.ready sets := by
        unfold ready
        rw [fdOf_put_same hch { ch with revents := sets.revents ch.fd } rfl]
      have hmem : c ∉ cs.filter (s.ready sets) := fun h => hnot (List.mem_filter.mp h).1
      by_cases hn : n - 1 ≤ 0
      · -- the count says that no further channel has a bit
        have hnil : cs.filter (s.ready sets) = [] := by
          rw [← List.length_eq_zero_iff, ← List.countP_eq_length_filter]
          omega
        rw [if_pos hn, hnil]
        exact ⟨t, rfl, Marked.cons hch List.not_mem_nil fun d chd hd => by simpa using hd⟩
      · rw [if_neg hn]
        have hlive' : ∀ d ∈ cs, (t.deref d).isSome := fun d hd => by
          rw [deref_put_ne (ne_of_mem_of_not_mem hd hnot)]
          exact hrest d hd
        obtain ⟨s', hs', hmarked⟩ : ∃ s', scan sets cs (n - 1) t (active ++ [c]) =
            some (s', active ++ [c] ++ cs.filter (t.ready sets)) ∧
              Marked t s' sets (cs.filter (t.ready sets)) :=
          scan_spec hcs hlive' (by rw [hsame]; omega)
        rw [hsame] at hs' hmarked
        refine ⟨s', ?_, hmarked.cons hch hmem⟩
        rw [hs', List.append_assoc, List.singleton_append]

/-- The channel `c`, which is `ch`, is registered. -/
def Holds (s : PollState) (c : Nat) (ch : Channel) : Prop :=
  s.deref c = some ch ∧ s.poller.channels.lookup ch.fd = some c

theorem Filed.holds (hF : s.Filed) (h : s.poller.channels.lookup fd = some c) :
    ∃ ch, s.Holds c ch ∧ ch.fd = fd := by
  obtain ⟨ch, hch, rfl⟩ := Option.map_eq_some_iff.mp (hF.entry h)
  exact ⟨ch, ⟨hch, h⟩, rfl⟩

theorem Filed.mem_iff (hF : s.Filed) : c ∈ s.poller.channelList ↔ ∃ ch, s.Holds c ch := by
  rw [hF.mem]
  constructor
  · rintro ⟨fd, h⟩
    obtain ⟨ch, hch, -⟩ := hF.holds h
    exact ⟨ch, hch⟩
  · rintro ⟨ch, -, h⟩
    exact ⟨ch.fd, h⟩

theorem Filed.countP_ready_le (hF : s.Filed) (sets : FdSets) :
    s.poller.channelList.countP (s.ready sets) ≤ sets.bits := by
  have hfd : ∀ c ∈ s.poller.channelList.filter (s.ready sets), ∃ fd, s.fdOf c = some fd ∧
      sets.revents fd ≠ kNoneEvent := by
    intro c hc
    obtain ⟨ch, hch, -⟩ := hF.mem_iff.mp (List.mem_filter.mp hc).1
    have hready := (List.mem_filter.mp hc).2
    rw [ready_eq hch, decide_eq_true_eq] at hready
    exact ⟨ch.fd, by rw [fdOf, hch, Option.map_some], hready⟩
  let fds := (s.poller.channelList.filter (s.ready sets)).map fun c => (s.fdOf c).getD 0
  have hnodup : fds.Nodup := by
    refine (hF.nodup.filter _).map_on fun c hc d hd he => ?_
    obtain ⟨fd, hcfd, -⟩ := hfd c hc
    obtain ⟨fd', hdfd, -⟩ := hfd d hd
    rw [hcfd, hdfd, Option.getD_some, Option.getD_some] at he
    exact hF.apart hcfd (he ▸ hdfd)
  have hsub : fds ⊆ sets.read.dedup ++ sets.write.dedup ++ sets.except.dedup := by
    intro x hx
    obtain ⟨c, hc, rfl⟩ := List.mem_map.mp hx
    obtain ⟨fd, hcfd, hne⟩ := hfd c hc
    rw [hcfd, Option.getD_some]
    simpa [or_assoc] using FdSets.revents_ne.mp hne
  have hle := (List.subperm_of_subset hnodup hsub).length_le
  rw [List.countP_eq_length_filter]
  simpa [fds, FdSets.bits, Nat.add_assoc] using hle

theorem Filed.wants (hF : s.Filed) (hc : s.Holds c ch) {f : Channel → Bool}
    (h : s.Wants f (s.poller.channels.entries.map Sigma.snd) ch.fd) : f ch = true := by
  obtain ⟨d, hd, chd, hchd, hf, hfd⟩ := h
  have hdfd : s.fdOf d = some ch.fd := by rw [fdOf, hchd, Option.map_some, hfd]
  have hcfd : s.fdOf c = some ch.fd := by rw [fdOf, hc.1, Option.map_some]
  obtain rfl := hF.apart hdfd hcfd
  cases hchd.symm.trans hc.1
  exact hf

end PollState

theorem PollState.Filed.rebuildFds_isSome (hF : s.Filed) : s.rebuildFds.isSome := by
  have hwatch : (s.watch (s.poller.channels.entries.map Sigma.snd) {} 0).isSome := by
    refine watch_isSome fun c hc => ?_
    obtain ⟨⟨fd, c⟩, he, rfl⟩ := List.mem_map.mp hc
    obtain ⟨ch, hch, -⟩ := hF.holds (AList.mem_lookup_iff.mpr he)
    rw [hch.1]
    rfl
  rw [rebuildFds, Option.isSome_map]
  exact hwatch

theorem PollState.Filed.poll_eq (hF : s.Filed) {asked given : FdSets} {maxFd n : Int}
    (hasked : s.rebuildFds = some (asked, maxFd)) (ha : asked.Answers given n) :
    ∃ s', s.poll (fun _ _ => (given, n)) =
        some (s', s.poller.channelList.filter (s.ready given)) ∧
      Marked s s' given (s.poller.channelList.filter (s.ready given)) := by
  have hcount := hF.countP_ready_le given
  rw [poll, hasked]
  simp only
  by_cases hn : n ≤ 0
  · have hnil : s.poller.channelList.filter (s.ready given) = [] := by
      have hbits := ha.bits
      rw [← List.length_eq_zero_iff, ← List.countP_eq_length_filter]
      omega
    rw [if_pos hn, hnil]
    exact ⟨s, rfl, fun c ch h => by simpa using h⟩
  · have hlive : ∀ c ∈ s.poller.channelList, (s.deref c).isSome := fun c hc => by
      obtain ⟨ch, hch, -⟩ := hF.mem_iff.mp hc
      rw [hch]
      rfl
    rw [if_neg hn]
    exact scan_spec hF.nodup hlive (by rw [ha.bits]; exact_mod_cast hcount)

/-- **`poll` reports the ready channels.** After every run of the poller, and for whatever
`select` leaves of the sets that it is asked for, `active_channels` are the registered channels
with a bit, each once; each has its bits as `revents`, and is told of reading or writing only
if it asked. -/
theorem poll_reports_ready {calls : List PollerCall} (h : pollerMachine.run calls = some s) :
    ∃ asked maxFd, s.rebuildFds = some (asked, maxFd) ∧
      ∀ given n, asked.Answers given n →
        ∃ s' active, s.poll (fun _ _ => (given, n)) = some (s', active) ∧ active.Nodup ∧
          (∀ c, c ∈ active ↔ ∃ ch, s.Holds c ch ∧ given.revents ch.fd ≠ kNoneEvent) ∧
          ∀ c ∈ active, ∀ ch, s.deref c = some ch →
            s'.deref c = some { ch with revents := given.revents ch.fd } ∧
            (given.revents ch.fd &&& kReadEvent ≠ 0 → ch.isReading = true) ∧
            (given.revents ch.fd &&& kWriteEvent ≠ 0 → ch.isWriting = true) := by
  have hF : s.Filed := Machine.invariant filed_init kept_filed h
  obtain ⟨⟨asked, maxFd⟩, hasked⟩ := Option.isSome_iff_exists.mp hF.rebuildFds_isSome
  refine ⟨asked, maxFd, hasked, fun given n ha => ?_⟩
  obtain ⟨s', hpoll, hmarked⟩ := hF.poll_eq hasked ha
  refine ⟨s', _, hpoll, hF.nodup.filter _, fun c => ?_, fun c hc ch hch => ?_⟩
  · rw [List.mem_filter, hF.mem_iff]
    constructor
    · rintro ⟨⟨ch, hch⟩, hready⟩
      rw [ready_eq hch.1, decide_eq_true_eq] at hready
      exact ⟨ch, hch, hready⟩
    · rintro ⟨ch, hch, hne⟩
      exact ⟨⟨ch, hch⟩, by rw [ready_eq hch.1]; exact decide_eq_true hne⟩
  · obtain ⟨ch', hheld⟩ := hF.mem_iff.mp (List.mem_filter.mp hc).1
    cases hheld.1.symm.trans hch
    obtain ⟨⟨sets, maxFd'⟩, hw, he⟩ := Option.map_eq_some_iff.mp hasked
    cases he
    obtain ⟨hread, hwrite⟩ := watch_spec hw
    refine ⟨by rw [hmarked c ch hch, if_pos hc], fun hr => ?_, fun hr => ?_⟩
    · have hmem := (hread ch.fd).mp (ha.read (FdSets.revents_read.mp hr))
      exact hF.wants hheld (hmem.resolve_left List.not_mem_nil)
    · have hmem := (hwrite ch.fd).mp (ha.write (FdSets.revents_write.mp hr))
      exact hF.wants hheld (hmem.resolve_left List.not_mem_nil)

/-- Two channels, the first added again after it was taken out. -/
def twoChannels : List PollerCall :=
  [.construct 5, .setEvents 0 kReadEvent, .updateChannel 0, .construct 6,
    .setEvents 1 (kReadEvent ||| kWriteEvent), .updateChannel 1, .removeChannel 0,
    .updateChannel 0]

/-- `select` finds both ready, the second to be read and written. -/
theorem poll_reports_ready_two :
    ∃ s, pollerMachine.run twoChannels = some s ∧
      ∃ s' active, s.poll (fun _ _ => (⟨[5, 6], [6], []⟩, 3)) = some (s', active) ∧
        active.Nodup ∧ 0 ∈ active ∧ 1 ∈ active := by
  refine ⟨_, rfl, ?_⟩
  obtain ⟨asked, maxFd, hasked, hpoll⟩ :=
    poll_reports_ready (show pollerMachine.run twoChannels = some _ from rfl)
  cases hasked
  obtain ⟨s', active, hs', hnodup, hmem, -⟩ :=
    hpoll ⟨[5, 6], [6], []⟩ 3 ⟨by decide, by decide, by decide, by decide⟩
  exact ⟨s', active, hs', hnodup, (hmem 0).mpr ⟨_, ⟨rfl, rfl⟩, by decide⟩,
    (hmem 1).mpr ⟨_, ⟨rfl, rfl⟩, by decide⟩⟩

end Hound.Reactor
