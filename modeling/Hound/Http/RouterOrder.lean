import Hound.Http.RouterComplete
import Mathlib.Data.List.Pairwise
import Mathlib.Data.List.Perm.Basic

/-!
# The order of registration

The walk takes the first `:` child, and the first `*` child, in the order of the calls, and
never comes back. `order_blind_iff`: a table of routes, no two of the same method and shape,
is answered the same in every order exactly when no two such siblings compete for a request
(`OrderFree`).
-/

namespace Hound.Http

open Hound.Lib

variable {H : Type}

def Registration.key (a : Registration H) : Bytes × Bytes := (a.method, a.pattern)

/-- The segments of a pattern, without the names behind `:` and `*`. -/
def shape (pattern : Bytes) : List Bytes :=
  (segments pattern).map fun s => if IsParam s then [58] else if IsWildcard s then [42] else s

/-- No two routes have the same method and the same shape. -/
def Distinct (routes : List (Bytes × Bytes)) : Prop :=
  routes.Pairwise fun r r' => ¬ (r.1 = r'.1 ∧ shape r.2 = shape r'.2)

instance (routes : List (Bytes × Bytes)) : Decidable (Distinct routes) :=
  inferInstanceAs (Decidable (routes.Pairwise _))

/-- Whatever the handlers are, and in whatever order the calls are made, the same handler
is returned. -/
def OrderBlind (routes : List (Bytes × Bytes)) : Prop :=
  ∀ (H : Type) (calls calls' : List (Registration H)), calls.map (·.key) = routes →
    calls'.Perm calls → ∀ req resp,
      ((Router.addAll calls').route req resp).1 = ((Router.addAll calls).route req resp).1

/-- The segments that go on from `pre`. -/
def onward (routes : List (Bytes × Bytes)) (pre : List Bytes) : List Bytes :=
  routes.filterMap fun r => next? pre (segments r.2)

/-- A request can have this method. -/
def Live (method : Bytes) : Prop := ∃ m : Method, m.str = method

/-- Two `:` siblings lead to no route that a request can ask for, and neither do two `*`
siblings without a `:` sibling, which is taken before them. -/
structure OrderFree (routes : List (Bytes × Bytes)) : Prop where
  params : ∀ pre p q, p ∈ onward routes pre → q ∈ onward routes pre → IsParam p → IsParam q →
    p ≠ q → ∀ r ∈ routes, pre ++ [p] <+: segments r.2 → ¬ Live r.1
  wildcards : ∀ pre p q, p ∈ onward routes pre → q ∈ onward routes pre → IsWildcard p →
    IsWildcard q → p ≠ q → (∀ t ∈ onward routes pre, ¬ IsParam t) →
    ∀ r ∈ routes, segments r.2 = pre ++ [p] → ¬ Live r.1

/-! ## The entries do not depend on the order -/

section Entries

variable {calls calls' : List (Registration H)} {m : Bytes} {segs : List Bytes}

theorem followers_eq (calls : List (Registration H)) (pre : List Bytes) :
    followers calls pre = onward (calls.map (·.key)) pre := by
  rw [onward, List.filterMap_map]
  rfl

/-- Of distinct routes, a method and a segment list belong to one call. -/
theorem Distinct.call_eq (hd : Distinct (calls.map (·.key))) {a b : Registration H}
    (ha : a ∈ calls) (hb : b ∈ calls) (hm : a.method = b.method)
    (hs : segments a.pattern = segments b.pattern) : a = b := by
  by_contra hne
  have hpair := List.pairwise_map.mp hd
  have : Std.Symm fun a b : Registration H =>
      ¬ (a.key.1 = b.key.1 ∧ shape a.key.2 = shape b.key.2) :=
    ⟨fun _ _ h h' => h ⟨h'.1.symm, h'.2.symm⟩⟩
  exact hpair.forall ha hb hne ⟨hm, congrArg (List.map _) hs⟩

theorem lastAdd_eq_some (hd : Distinct (calls.map (·.key))) {handler : Option H} :
    lastAdd calls m segs = some handler ↔
      ∃ a ∈ calls, a.method = m ∧ segments a.pattern = segs ∧ a.handler = handler := by
  refine ⟨lastAdd_mem, ?_⟩
  rintro ⟨a, ha, rfl, rfl, rfl⟩
  obtain ⟨h, hh⟩ := lastAdd_isSome ha
  obtain ⟨b, hb, hm, hs, rfl⟩ := lastAdd_mem hh
  rw [hh, hd.call_eq ha hb hm.symm hs.symm]

theorem Distinct.perm {routes routes' : List (Bytes × Bytes)} (hd : Distinct routes)
    (hp : routes'.Perm routes) : Distinct routes' :=
  (hp.pairwise_iff fun h h' => h ⟨h'.1.symm, h'.2.symm⟩).mpr hd

theorem lastAdd_perm (hd : Distinct (calls.map (·.key))) (hp : calls'.Perm calls) (m : Bytes)
    (segs : List Bytes) : lastAdd calls' m segs = lastAdd calls m segs := by
  apply Option.ext
  intro handler
  rw [lastAdd_eq_some hd, lastAdd_eq_some (hd.perm (hp.map _))]
  simp only [hp.mem_iff]

end Entries

/-! ## Routes that are order-free -/

/-- Two searches through the same names find the same one, or two that differ. -/
theorem find?_mem_iff {names names' : List Bytes} (h : ∀ p, p ∈ names ↔ p ∈ names')
    (good : Bytes → Bool) :
    names.find? good = names'.find? good ∨
      ∃ p q, names.find? good = some p ∧ names'.find? good = some q ∧ p ≠ q := by
  cases hp : names.find? good with
  | none =>
    refine .inl (Eq.symm (List.find?_eq_none.mpr fun q hq => ?_))
    exact List.find?_eq_none.mp hp q ((h q).mpr hq)
  | some p =>
    cases hq : names'.find? good with
    | none =>
      have hno := List.find?_eq_none.mp hq p ((h p).mp (List.mem_of_find?_eq_some hp))
      exact absurd (List.find?_some hp) hno
    | some q =>
      by_cases hne : p = q
      · exact .inl (by rw [hne])
      · exact .inr ⟨p, q, rfl, rfl, hne⟩

theorem pick_self {names : List Bytes} {s : Bytes} (h : s ∈ names) : pick names s = some s := by
  cases hf : names.find? (· = s) with
  | none => exact absurd (List.find?_eq_none.mp hf s h) (by simp)
  | some p =>
    have hp : p = s := by simpa using List.find?_some hf
    rw [pick, hf, hp]
    rfl

theorem pick_of_notMem {names : List Bytes} {s : Bytes} (h : s ∉ names) :
    pick names s = (names.find? (IsParam ·)).or (names.find? (IsWildcard ·)) := by
  have hf : names.find? (· = s) = none := by
    rw [List.find?_eq_none]
    rintro p hp he
    exact h (of_decide_eq_true he ▸ hp)
  rw [pick, hf]
  rfl

/-- Two lists of the same names: the walk picks the same one, or picks two different `:` names,
or two different `*` names and there is no `:` name. -/
theorem pick_mem_iff {names names' : List Bytes} (h : ∀ p, p ∈ names ↔ p ∈ names') (s : Bytes) :
    pick names s = pick names' s ∨ ∃ p q, pick names s = some p ∧ pick names' s = some q ∧
      p ∈ names ∧ q ∈ names ∧ p ≠ q ∧ p ≠ s ∧ q ≠ s ∧
      ((IsParam p ∧ IsParam q) ∨
        (IsWildcard p ∧ IsWildcard q ∧ ∀ t ∈ names, ¬ IsParam t)) := by
  by_cases hs : s ∈ names
  · exact .inl (by rw [pick_self hs, pick_self ((h s).mp hs)])
  have hne {p : Bytes} (hp : p ∈ names) : p ≠ s := fun he => hs (he ▸ hp)
  rw [pick_of_notMem hs, pick_of_notMem fun hs' => hs ((h s).mpr hs')]
  rcases find?_mem_iff h (IsParam ·) with heq | ⟨p, q, hp, hq, hpq⟩
  · rw [← heq]
    cases hp : names.find? (IsParam ·) with
    | some p => exact .inl rfl
    | none =>
      have hno : ∀ t ∈ names, ¬ IsParam t := fun t ht => by
        simpa using List.find?_eq_none.mp hp t ht
      rcases find?_mem_iff h (IsWildcard ·) with heq | ⟨p, q, hp, hq, hpq⟩
      · exact .inl (by rw [heq])
      · have hpm := List.mem_of_find?_eq_some hp
        have hqm := (h q).mpr (List.mem_of_find?_eq_some hq)
        exact .inr ⟨p, q, hp, hq, hpm, hqm, hpq, hne hpm, hne hqm,
          .inr ⟨by simpa using List.find?_some hp, by simpa using List.find?_some hq, hno⟩⟩
  · have hpm := List.mem_of_find?_eq_some hp
    have hqm := (h q).mpr (List.mem_of_find?_eq_some hq)
    exact .inr ⟨p, q, by rw [hp]; rfl, by rw [hq]; rfl, hpm, hqm, hpq, hne hpm, hne hqm,
      .inl ⟨by simpa using List.find?_some hp, by simpa using List.find?_some hq⟩⟩

/-- The entry that the walk finds is the same for two orders of the names. -/
theorem choose_bind_congr {α : Type} : ∀ (segs : List Bytes) {f g : List Bytes → List Bytes}
    {look : List Bytes → Option α}, (∀ pre p, p ∈ f pre ↔ p ∈ g pre) →
    (∀ pre p q, p ∈ f pre → q ∈ f pre → IsParam p → IsParam q → p ≠ q →
      ∀ post, look (pre ++ p :: post) = none) →
    (∀ pre p q, p ∈ f pre → q ∈ f pre → IsWildcard p → IsWildcard q → p ≠ q →
      (∀ t ∈ f pre, ¬ IsParam t) → look (pre ++ [p]) = none) →
    (choose f segs).bind look = (choose g segs).bind look
  | [], _, _, _, _, _, _ => rfl
  | s :: segs, f, g, look, hmem, hpar, hwild => by
    rw [choose, choose]
    rcases pick_mem_iff (hmem []) s with heq | ⟨p, q, hp, hq, hpf, hqf, hne, hps, hqs, hkind⟩
    · rw [← heq]
      cases pick (f []) s with
      | none => rfl
      | some p =>
        simp only [Option.bind_some]
        split
        · rfl
        · rw [Option.bind_map, Option.bind_map]
          exact choose_bind_congr segs (fun pre => hmem (p :: pre)) (fun pre => hpar (p :: pre))
            fun pre => hwild (p :: pre)
    · rw [hp, hq]
      simp only [Option.bind_some]
      rcases hkind with ⟨hpp, hqp⟩ | ⟨hpw, hqw, hno⟩
      · rw [if_neg fun h => hpp.not_wildcard h.2, if_neg fun h => hqp.not_wildcard h.2,
          Option.bind_map, Option.bind_map]
        have hlp : look ∘ (p :: ·) = fun _ => none := funext (hpar [] p q hpf hqf hpp hqp hne)
        have hlq : look ∘ (q :: ·) = fun _ => none :=
          funext (hpar [] q p hqf hpf hqp hpp (Ne.symm hne))
        rw [hlp, hlq, Option.bind_fun_none, Option.bind_fun_none]
      · rw [if_pos ⟨hps, hpw⟩, if_pos ⟨hqs, hqw⟩, Option.bind_some, Option.bind_some]
        exact (hwild [] p q hpf hqf hpw hqw hne hno).trans
          (hwild [] q p hqf hpf hqw hpw (Ne.symm hne) hno).symm

theorem next?_eq_some : ∀ {pre segs : List Bytes} {p : Bytes}, next? pre segs = some p →
    ∃ post, segs = pre ++ p :: post
  | [], s :: segs, p, h => by cases h; exact ⟨segs, rfl⟩
  | q :: pre, s :: segs, p, h => by
    rw [next?] at h
    split at h
    · next hs =>
      obtain ⟨post, rfl⟩ := next?_eq_some h
      exact ⟨post, by rw [hs]; rfl⟩
    · cases h

theorem route_addAll (calls : List (Registration H)) (req : HttpRequest) (resp : HttpResponse) :
    ((Router.addAll calls).route req resp).1 =
      ((choose (followers calls) (segments req.path)).bind (lastAdd calls req.method.str)).join := by
  rw [Router.route_fst (Router.wf_addAll calls), choose_addAll]
  congr 2
  exact funext (Router.stored_addAll calls req.method.str)

theorem OrderFree.blind {routes : List (Bytes × Bytes)} (hd : Distinct routes)
    (h : OrderFree routes) : OrderBlind routes := by
  rintro H calls calls' rfl hp req resp
  rw [route_addAll, route_addAll, funext (lastAdd_perm hd hp req.method.str)]
  congr 1
  have hlive : Live req.method.str := ⟨req.method, rfl⟩
  have hmem (pre : List Bytes) (p : Bytes) : p ∈ followers calls' pre ↔ p ∈ followers calls pre :=
    (hp.filterMap _).mem_iff
  have hnone {segs : List Bytes}
      (hseg : ∀ r ∈ calls.map (·.key), segments r.2 = segs → ¬ Live r.1) :
      lastAdd calls req.method.str segs = none := by
    by_contra hsome
    obtain ⟨handler, hh⟩ := Option.ne_none_iff_exists'.mp hsome
    obtain ⟨a, ha, hm, hs, -⟩ := lastAdd_mem hh
    exact hseg a.key (List.mem_map_of_mem ha) hs (by rw [Registration.key, hm]; exact hlive)
  refine choose_bind_congr _ hmem ?_ ?_
  · intro pre p q hpf hqf hpp hqp hne post
    rw [hmem, followers_eq] at hpf hqf
    refine hnone fun r hr hs => h.params pre p q hpf hqf hpp hqp hne r hr ?_
    exact ⟨post, by rw [hs, List.append_assoc]; rfl⟩
  · intro pre p q hpf hqf hpw hqw hne hno
    rw [hmem, followers_eq] at hpf hqf
    have hno' : ∀ t ∈ onward (calls.map (·.key)) pre, ¬ IsParam t := fun t ht =>
      hno t ((hmem pre t).mpr (followers_eq calls pre ▸ ht))
    exact hnone (h.wildcards pre p q hpf hqf hpw hqw hne hno')

/-! ## Siblings that compete -/

def pathOf (segs : List Bytes) : Bytes := [(47 : Byte)].intercalate segs

def IsSegment (s : Bytes) : Prop := s ≠ [] ∧ 47 ∉ s

theorem segments_pathOf {segs : List Bytes} (hne : segs ≠ []) (h : ∀ s ∈ segs, IsSegment s) :
    segments (pathOf segs) = segs := by
  rw [segments, pathOf, List.splitOn_intercalate 47 (fun s hs => (h s hs).2) hne]
  exact List.filter_eq_self.mpr fun s hs => by simpa using (h s hs).1

theorem notMem_of_mem_splitOn {x : Byte} : ∀ {xs l : Bytes}, l ∈ xs.splitOn x → x ∉ l
  | [], l, h => by simp at h; simp [h]
  | y :: xs, l, h => by
    rw [List.splitOn_cons_eq_if_modifyHead] at h
    have ih {l : Bytes} : l ∈ xs.splitOn x → x ∉ l := notMem_of_mem_splitOn
    split at h
    · rcases List.mem_cons.mp h with rfl | h
      · exact List.not_mem_nil
      · exact ih h
    · next hy =>
      cases hsp : xs.splitOn x with
      | nil => exact absurd hsp (List.splitOn_ne_nil x xs)
      | cons l₀ ls =>
        rw [hsp] at ih h
        rcases List.mem_cons.mp h with rfl | h
        · simpa [Ne.symm (by simpa using hy)] using ih List.mem_cons_self
        · exact ih (List.mem_cons_of_mem _ h)

theorem isSegment_of_mem {path s : Bytes} (h : s ∈ segments path) : IsSegment s := by
  obtain ⟨hs, hne⟩ := List.mem_filter.mp h
  exact ⟨by simpa using hne, notMem_of_mem_splitOn hs⟩

theorem exists_fresh (names : List Bytes) : ∃ s, IsSegment s ∧ s ∉ names := by
  refine ⟨List.replicate (names.flatten.length + 1) 120, ⟨by simp, ?_⟩, fun hmem => ?_⟩
  · intro h
    exact absurd (List.eq_of_mem_replicate h) (by decide)
  · have hle := (List.sublist_flatten_of_mem hmem).length_le
    rw [List.length_replicate] at hle
    omega

theorem choose_literal : ∀ {pre : List Bytes} {nexts : List Bytes → List Bytes},
    Registered nexts pre → ∀ segs,
      choose nexts (pre ++ segs) = (choose (fun x => nexts (pre ++ x)) segs).map (pre ++ ·)
  | [], nexts, _, segs => by simp
  | p :: pre, nexts, h, segs => by
    obtain ⟨hp, h⟩ := registered_cons.mp h
    rw [List.cons_append, choose, pick_self hp, Option.bind_some, if_neg fun hw => hw.1 rfl,
      choose_literal h segs, Option.map_map]
    rfl

section Detour

variable {nexts : List Bytes → List Bytes} {pre rest : List Bytes} {p s : Bytes}

/-- Where the walk leaves the spelled path for `p`, it stays below `p`. -/
theorem prefix_of_detour (hreg : Registered nexts pre) (hpick : pick (nexts pre) s = some p)
    {pattern : List Bytes} (h : choose nexts (pre ++ s :: rest) = some pattern) :
    pre ++ [p] <+: pattern := by
  rw [choose_literal hreg, choose, List.append_nil, hpick, Option.bind_some] at h
  obtain ⟨t, ht, rfl⟩ := Option.map_eq_some_iff.mp h
  refine (List.prefix_append_right_inj pre).mpr ?_
  split at ht
  · cases ht; exact List.prefix_refl _
  · obtain ⟨u, -, rfl⟩ := Option.map_eq_some_iff.mp ht
    exact ⟨u, rfl⟩

/-- It ends at the pattern below `p` that is spelled out behind it. -/
theorem choose_detour (hreg : Registered nexts (pre ++ p :: rest))
    (hpick : pick (nexts pre) s = some p) (hkind : IsParam p ∨ rest = []) :
    choose nexts (pre ++ s :: rest) = some (pre ++ p :: rest) := by
  have hpre : Registered nexts pre := fun pre' q post h =>
    hreg pre' q (post ++ p :: rest) (by rw [h, List.append_assoc]; rfl)
  have hrest : Registered (fun x => nexts (pre ++ p :: x)) rest := fun pre' q post h =>
    hreg (pre ++ p :: pre') q post (by rw [h, List.append_assoc]; rfl)
  have hlit := choose_literal hrest []
  rw [List.append_nil] at hlit
  rw [choose_literal hpre, choose, List.append_nil, hpick, Option.bind_some, hlit]
  split
  · next hw =>
    have hnil : rest = [] := hkind.resolve_left fun hp => hp.not_wildcard hw.2
    rw [hnil]
    rfl
  · simp [choose]

end Detour

/-- The calls below a path are made first. -/
def promote (path : List Bytes) (calls : List (Registration H)) : List (Registration H) :=
  calls.filter (fun a => decide (path <+: segments a.pattern)) ++
    calls.filter fun a => !decide (path <+: segments a.pattern)

theorem promote_perm (path : List Bytes) (calls : List (Registration H)) :
    (promote path calls).Perm calls :=
  List.filter_append_perm ..

theorem followers_promote {calls : List (Registration H)} {a : Registration H} (ha : a ∈ calls)
    {pre : List Bytes} {p : Bytes} (hpre : pre ++ [p] <+: segments a.pattern) :
    ∃ names, followers (promote (pre ++ [p]) calls) pre = p :: names := by
  have hmem : a ∈ calls.filter fun a => decide (pre ++ [p] <+: segments a.pattern) :=
    List.mem_filter.mpr ⟨ha, by simpa using hpre⟩
  obtain ⟨b, l, hbl⟩ := List.exists_cons_of_ne_nil (List.ne_nil_of_mem hmem)
  have hb : pre ++ [p] <+: segments b.pattern := by
    have : b ∈ calls.filter fun a => decide (pre ++ [p] <+: segments a.pattern) := by
      rw [hbl]; exact List.mem_cons_self
    simpa using (List.mem_filter.mp this).2
  obtain ⟨post, hpost⟩ := hb
  have hnext : next? pre (segments b.pattern) = some p := by
    rw [← hpost, List.append_assoc]
    exact next?_append pre p post
  rw [promote, hbl, followers, List.cons_append, List.filterMap_cons, hnext]
  exact ⟨_, rfl⟩

theorem pick_head {names : List Bytes} {p s : Bytes} (hs : s ∉ p :: names)
    (hp : IsParam p ∨ (IsWildcard p ∧ ∀ t ∈ p :: names, ¬ IsParam t)) :
    pick (p :: names) s = some p := by
  rw [pick_of_notMem hs]
  rcases hp with hp | ⟨hp, hno⟩
  · simp [hp]
  · have hf : (p :: names).find? (IsParam ·) = none :=
      List.find?_eq_none.mpr fun t ht => by simpa using hno t ht
    simp [hf, hp]

/-- The calls of `routes`, with a handler that is told apart from all others: that of `r`. -/
def marked (routes : List (Bytes × Bytes)) (r : Bytes × Bytes) : List (Registration Bool) :=
  routes.map fun r' => ⟨r'.1, r'.2, some (decide (r' = r))⟩

section Competing

variable {routes : List (Bytes × Bytes)} {r : Bytes × Bytes}

@[simp] theorem key_marked (routes : List (Bytes × Bytes)) (r : Bytes × Bytes) :
    (marked routes r).map (·.key) = routes := by
  simp [marked, Registration.key, Function.comp_def]

theorem mem_marked {a : Registration Bool} :
    a ∈ marked routes r ↔ a.key ∈ routes ∧ a.handler = some (decide (a.key = r)) := by
  constructor
  · intro h
    obtain ⟨r', hr', rfl⟩ := List.mem_map.mp h
    exact ⟨hr', rfl⟩
  · rintro ⟨hk, hh⟩
    refine List.mem_map.mpr ⟨a.key, hk, ?_⟩
    rw [← hh]
    rfl

variable {pre rest : List Bytes} {p q s : Bytes}

/-- With the calls below `pre ++ [p]` first, a fresh segment behind `pre` leads to `p`. -/
theorem pick_promote {r' : Bytes × Bytes} (hr : r' ∈ routes) (hpre : pre ++ [p] <+: segments r'.2)
    (hs : s ∉ onward routes pre)
    (hp : IsParam p ∨ (IsWildcard p ∧ ∀ t ∈ onward routes pre, ¬ IsParam t)) :
    pick (followers (promote (pre ++ [p]) (marked routes r)) pre) s = some p := by
  have hmem : (⟨r'.1, r'.2, some (decide (r' = r))⟩ : Registration Bool) ∈ marked routes r :=
    mem_marked.mpr ⟨hr, rfl⟩
  have hiff (t : Bytes) : t ∈ followers (promote (pre ++ [p]) (marked routes r)) pre ↔
      t ∈ onward routes pre := by
    refine ((promote_perm (pre ++ [p]) (marked routes r)).filterMap _).mem_iff.trans ?_
    change t ∈ followers (marked routes r) pre ↔ _
    rw [followers_eq, key_marked]
  obtain ⟨names, hnames⟩ := followers_promote hmem hpre
  rw [hnames] at hiff ⊢
  exact pick_head (fun h => hs ((hiff s).mp h)) (hp.imp_right fun h =>
    ⟨h.1, fun t ht => h.2 t ((hiff t).mp ht)⟩)

/-- Siblings `p` and `q` behind `pre` compete for the route `r` below `p`. -/
theorem not_blind_of_competing (hd : Distinct routes) (hr : r ∈ routes) (hlive : Live r.1)
    (hseg : segments r.2 = pre ++ p :: rest) (hq : q ∈ onward routes pre) (hpq : p ≠ q)
    (hkind : (IsParam p ∧ IsParam q) ∨ (rest = [] ∧ IsWildcard p ∧ IsWildcard q ∧
      ∀ t ∈ onward routes pre, ¬ IsParam t)) :
    ¬ OrderBlind routes := by
  intro hblind
  obtain ⟨m, hm⟩ := hlive
  obtain ⟨s, hs, hfresh⟩ := exists_fresh (onward routes pre)
  let calls := marked routes r
  have hcall : (⟨r.1, r.2, some true⟩ : Registration Bool) ∈ calls :=
    mem_marked.mpr ⟨hr, by simp [Registration.key]⟩
  have hmem (path : List Bytes) : (⟨r.1, r.2, some true⟩ : Registration Bool) ∈
      promote path calls := (promote_perm path calls).mem_iff.mpr hcall
  have hreg (path : List Bytes) : Registered (followers (promote path calls))
      (pre ++ p :: rest) := hseg ▸ registered_of_mem (hmem path)
  let req : HttpRequest := { method := m, path := pathOf (pre ++ s :: rest) }
  have hpath : segments req.path = pre ++ s :: rest := by
    refine segments_pathOf (by simp) fun t ht => ?_
    have hold {t : Bytes} (ht : t ∈ pre ++ p :: rest) : IsSegment t :=
      isSegment_of_mem (hseg ▸ ht)
    rcases List.mem_append.mp ht with ht | ht
    · exact hold (List.mem_append_left _ ht)
    · rcases List.mem_cons.mp ht with rfl | ht
      · exact hs
      · exact hold (List.mem_append_right _ (List.mem_cons_of_mem _ ht))
  have hpick : pick (followers (promote (pre ++ [p]) calls) pre) s = some p := by
    refine pick_promote hr ⟨rest, by rw [hseg, List.append_assoc]; rfl⟩ hfresh ?_
    exact hkind.imp And.left fun h => ⟨h.2.1, h.2.2.2⟩
  have hpick' : pick (followers (promote (pre ++ [q]) calls) pre) s = some q := by
    obtain ⟨r', hr', hnext⟩ := List.mem_filterMap.mp hq
    obtain ⟨post, hpost⟩ := next?_eq_some hnext
    refine pick_promote hr' ⟨post, by rw [hpost, List.append_assoc]; rfl⟩ hfresh ?_
    exact hkind.imp And.right fun h => ⟨h.2.2.1, h.2.2.2⟩
  -- with `p` first the request gets the handler of `r`
  have hfirst : ((Router.addAll (promote (pre ++ [p]) calls)).route req {}).1 = some true := by
    have hlast : lastAdd calls m.str (pre ++ p :: rest) = some (some true) :=
      (lastAdd_eq_some (key_marked routes r ▸ hd)).mpr ⟨_, hcall, hm.symm, hseg, rfl⟩
    rw [route_addAll, hpath, choose_detour (hreg _) hpick (hkind.imp And.left And.left),
      Option.bind_some, lastAdd_perm (key_marked routes r ▸ hd) (promote_perm _ _), hlast]
    rfl
  -- with `q` first it does not
  have hother : ((Router.addAll (promote (pre ++ [q]) calls)).route req {}).1 ≠ some true := by
    intro h
    rw [route_addAll, hpath, Option.join_eq_some_iff] at h
    obtain ⟨pattern, hchoose, hlast⟩ := Option.bind_eq_some_iff.mp h
    obtain ⟨b, hb, -, hbs, hbh⟩ := lastAdd_mem hlast
    obtain ⟨-, hmark⟩ := mem_marked.mp ((promote_perm _ _).mem_iff.mp hb)
    rw [hbh, Option.some.injEq, Eq.comm, decide_eq_true_eq] at hmark
    have hregpre : Registered (followers (promote (pre ++ [q]) calls)) pre :=
      fun pre' t post h => hreg _ pre' t (post ++ p :: rest) (by rw [h, List.append_assoc]; rfl)
    obtain ⟨post, hpost⟩ := prefix_of_detour hregpre hpick' hchoose
    have hbr : segments b.pattern = pre ++ p :: rest := hseg ▸ congrArg (segments ·.2) hmark
    rw [← hbs, hbr, List.append_assoc] at hpost
    have hcons := List.append_cancel_left hpost
    exact hpq (List.cons.inj hcons).1.symm
  have hsame (path : List Bytes) :
      ((Router.addAll (promote path calls)).route req {}).1 =
        ((Router.addAll calls).route req {}).1 :=
    hblind Bool calls (promote path calls) (key_marked routes r) (promote_perm path calls) req {}
  exact hother ((hsame _).trans ((hsame _).symm.trans hfirst))

/-- **A table is answered the same in every order exactly when it is order-free.** -/
theorem order_blind_iff (hd : Distinct routes) : OrderBlind routes ↔ OrderFree routes := by
  refine ⟨fun h => ⟨?_, ?_⟩, OrderFree.blind hd⟩
  · intro pre p q _ hq hpp hqp hpq r hr ⟨rest, hrest⟩ hlive
    have hseg : segments r.2 = pre ++ p :: rest := by rw [← hrest, List.append_assoc]; rfl
    exact not_blind_of_competing hd hr hlive hseg hq hpq (.inl ⟨hpp, hqp⟩) h
  · intro pre p q _ hq hpw hqw hpq hno r hr hseg hlive
    exact not_blind_of_competing hd hr hlive hseg hq hpq (.inr ⟨rfl, hpw, hqw, hno⟩) h

end Competing

theorem order_blind_iff_user :
    OrderBlind (userRoutes.map (·.key)) ↔ OrderFree (userRoutes.map (·.key)) :=
  order_blind_iff (by decide)

/-- `GET /users/7` is answered by the first of the two routes when that was added first. -/
theorem userRoutes_reordered :
    userRoutes.reverse.Perm userRoutes ∧ Distinct (userRoutes.map (·.key)) ∧
    ((Router.addAll userRoutes).route { method := .get, path := bytes "/users/7" } {}).1 =
      some () ∧
    ((Router.addAll userRoutes.reverse).route
      { method := .get, path := bytes "/users/7" } {}).1 = none :=
  ⟨userRoutes.reverse_perm, by decide, by decide, by decide⟩

end Hound.Http
