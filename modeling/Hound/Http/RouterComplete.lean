import Hound.Http.RouterSound
import Hound.Lib.Search

/-!
# When a registered route is found

The walk of `route` commits to one child at every level. A matching pattern is reached
exactly when it is `Unshadowed`: no other registered pattern that agrees with it up to
some level is tried before it there. `route_complete_iff` turns this into the
condition under which a request with a matching route gets a handler.
-/

namespace Hound.Http

open Hound.Lib

variable {H : Type}

/-- The order in which the walk tries segments for `s`: `s` itself, `:`, `*`; 3 is never taken. -/
def rank (s p : Bytes) : Nat :=
  if p = s then 0 else if IsParam p then 1 else if IsWildcard p then 2 else 3

/-- `p` is tried before `q` for `s`. -/
def Ahead (names : List Bytes) (s p q : Bytes) : Prop :=
  rank s p < rank s q ∨ (rank s p = rank s q ∧ names.idxOf p < names.idxOf q)

instance (names : List Bytes) (s p q : Bytes) : Decidable (Ahead names s p q) :=
  inferInstanceAs (Decidable (_ ∨ _))

/-- On its way to `pattern` the walk meets nothing that it tries first, and does not take
a last `*` segment for the path's own spelling while more segments follow. -/
structure Unshadowed (nexts : List Bytes → List Bytes) (pattern path : List Bytes) : Prop where
  ahead : ∀ pre p post s, pattern = pre ++ p :: post → path[pre.length]? = some s →
    ∀ q ∈ nexts pre, q ≠ p → Ahead (nexts pre) s p q
  literal : ∀ pre p, pattern = pre ++ [p] → IsWildcard p → path[pre.length]? = some p →
    path.length = pattern.length

/-- Every segment of `pattern` goes on from those before it. -/
def Registered (nexts : List Bytes → List Bytes) (pattern : List Bytes) : Prop :=
  ∀ pre p post, pattern = pre ++ p :: post → p ∈ nexts pre

/-! ## One level -/

theorem rank_eq_zero {s p : Bytes} : rank s p = 0 ↔ p = s := by
  unfold rank; split_ifs <;> simp_all

theorem Ahead.asymm {names : List Bytes} {s p q : Bytes} (h : Ahead names s p q) :
    ¬ Ahead names s q p := by
  unfold Ahead at *; omega

theorem ahead_of_pick {names : List Bytes} {s p : Bytes} (h : pick names s = some p) :
    rank s p < 3 ∧ ∀ q ∈ names, q ≠ p → Ahead names s p q := by
  rcases Option.or_eq_some_iff.mp h with h | ⟨he, h⟩
  · have hp : p = s := by simpa using List.find?_some h
    subst hp
    have h0 : rank p p = 0 := rank_eq_zero.mpr rfl
    refine ⟨by omega, fun q _ hne => .inl ?_⟩
    have : rank p q ≠ 0 := fun h => hne (rank_eq_zero.mp h)
    omega
  · have hexact : ∀ q ∈ names, q ≠ s := fun q hq => by simpa using List.find?_eq_none.mp he q hq
    rcases Option.or_eq_some_iff.mp h with h | ⟨hpar, h⟩
    · obtain ⟨hmem, hp, hfirst⟩ := find?_eq_some_idxOf h
      have hp : IsParam p := by simpa using hp
      have h1 : rank s p = 1 := by simp [rank, hexact p hmem, hp]
      refine ⟨by omega, fun q hq hne => ?_⟩
      by_cases hq1 : IsParam q
      · have : rank s q = 1 := by simp [rank, hexact q hq, hq1]
        exact .inr ⟨by omega, hfirst q hq (by simpa using hq1) hne⟩
      · have : 2 ≤ rank s q := by simp only [rank, hexact q hq, hq1, if_false]; split <;> omega
        exact .inl (by omega)
    · have hparam : ∀ q ∈ names, ¬ IsParam q := fun q hq => by
        simpa using List.find?_eq_none.mp hpar q hq
      obtain ⟨hmem, hp, hfirst⟩ := find?_eq_some_idxOf h
      have hp : IsWildcard p := by simpa using hp
      have h2 : rank s p = 2 := by simp [rank, hexact p hmem, hparam p hmem, hp]
      refine ⟨by omega, fun q hq hne => ?_⟩
      by_cases hq2 : IsWildcard q
      · have : rank s q = 2 := by simp [rank, hexact q hq, hparam q hq, hq2]
        exact .inr ⟨by omega, hfirst q hq (by simpa using hq2) hne⟩
      · have : rank s q = 3 := by simp [rank, hexact q hq, hparam q hq, hq2]
        exact .inl (by omega)

theorem pick_iff {names : List Bytes} {s p : Bytes} :
    pick names s = some p ↔
      p ∈ names ∧ rank s p < 3 ∧ ∀ q ∈ names, q ≠ p → Ahead names s p q := by
  constructor
  · intro h
    exact ⟨(pick_eq_some h).1, ahead_of_pick h⟩
  · rintro ⟨hmem, hrank, hahead⟩
    cases hr : pick names s with
    | none =>
      simp only [pick, Option.or_eq_none_iff, List.find?_eq_none, decide_eq_true_eq] at hr
      obtain ⟨h0, h1, h2⟩ := hr
      simp [rank, h0 p hmem, h1 p hmem, h2 p hmem] at hrank
    | some r =>
      by_cases hne : r = p
      · rw [hne]
      · have hr1 := (ahead_of_pick hr).2 p hmem (Ne.symm hne)
        exact absurd (hahead r (pick_eq_some hr).1 hne) hr1.asymm

/-! ## The whole walk -/

variable {nexts : List Bytes → List Bytes}

theorem registered_cons {p : Bytes} {ps : List Bytes} :
    Registered nexts (p :: ps) ↔ p ∈ nexts [] ∧ Registered (fun pre => nexts (p :: pre)) ps := by
  constructor
  · intro h
    exact ⟨h [] p ps rfl, fun pre q post hps => h (p :: pre) q post (by rw [hps]; rfl)⟩
  · rintro ⟨hp, h⟩ pre q post heq
    cases pre with
    | nil => cases heq; exact hp
    | cons r pre =>
      obtain ⟨rfl, hps⟩ := List.cons.inj heq
      exact h pre q post hps

theorem unshadowed_cons {p s : Bytes} {ps segs : List Bytes} :
    Unshadowed nexts (p :: ps) (s :: segs) ↔
      (∀ q ∈ nexts [], q ≠ p → Ahead (nexts []) s p q) ∧
      (ps = [] → IsWildcard p → p = s → segs = []) ∧
      Unshadowed (fun pre => nexts (p :: pre)) ps segs := by
  constructor
  · intro h
    refine ⟨h.ahead [] p ps s rfl rfl, ?_, ?_, ?_⟩
    · rintro rfl hw rfl
      have := h.literal [] p rfl hw rfl
      exact List.length_eq_zero_iff.mp (by simpa using this)
    · intro pre q post t hps ht
      exact h.ahead (p :: pre) q post t (by rw [hps]; rfl) ht
    · intro pre q hps hw ht
      simpa using h.literal (p :: pre) q (by rw [hps]; rfl) hw ht
  · rintro ⟨hhead, hlit, h⟩
    constructor
    · intro pre q post t heq ht
      cases pre with
      | nil => cases heq; cases ht; exact hhead
      | cons r pre =>
        obtain ⟨rfl, hps⟩ := List.cons.inj heq
        exact h.ahead pre q post t hps ht
    · intro pre q heq hw ht
      cases pre with
      | nil => cases heq; cases ht; simp [hlit rfl hw rfl]
      | cons r pre =>
        obtain ⟨rfl, hps⟩ := List.cons.inj heq
        simpa using h.literal pre q hps hw ht

theorem Unshadowed.nil (segs : List Bytes) : Unshadowed nexts [] segs :=
  ⟨fun pre p post s h => by simp at h, fun pre p h => by simp at h⟩

/-- **The walk ends at a registered pattern exactly when it matches and is unshadowed.** -/
theorem choose_iff : ∀ {segs : List Bytes} {nexts : List Bytes → List Bytes}
    {pattern : List Bytes}, choose nexts segs = some pattern ↔
      Registered nexts pattern ∧ Matches pattern segs ∧ Unshadowed nexts pattern segs
  | [], nexts, [] =>
    iff_of_true rfl ⟨fun pre p post h => by simp at h, trivial, .nil []⟩
  | [], nexts, p :: ps => iff_of_false nofun fun h => h.2.1
  | s :: segs, nexts, [] => by
    refine iff_of_false (fun h => ?_) fun h => h.2.1
    exact choose_matches h
  | s :: segs, nexts, p :: ps => by
    have ih : choose (fun pre => nexts (p :: pre)) segs = some ps ↔ _ := choose_iff
    rw [registered_cons, unshadowed_cons]
    constructor
    · intro h
      have hm := choose_matches h
      obtain ⟨r, hr, h⟩ := Option.bind_eq_some_iff.mp h
      split at h
      · next hw =>
        cases h
        obtain ⟨hmem, -, hahead⟩ := pick_iff.mp hr
        refine ⟨⟨hmem, fun pre q post hq => by simp at hq⟩, hm, hahead, ?_, .nil segs⟩
        intro _ _ hrs
        exact absurd hrs hw.1
      · next hw =>
        obtain ⟨qs, hqs, heq⟩ := Option.map_eq_some_iff.mp h
        obtain ⟨rfl, rfl⟩ := List.cons.inj heq
        obtain ⟨hmem, -, hahead⟩ := pick_iff.mp hr
        obtain ⟨hreg, hmatch, hun⟩ := ih.mp hqs
        refine ⟨⟨hmem, hreg⟩, hm, hahead, ?_, hun⟩
        rintro rfl - -
        cases segs with
        | nil => rfl
        | cons t segs => exact hmatch.elim
    · rintro ⟨⟨hmem, hreg⟩, hm, hahead, hlit, hun⟩
      have hrank : rank s p < 3 := by
        unfold rank
        rcases hm with ⟨-, hw⟩ | ⟨rfl | hp, -⟩
        · simp only [hw, if_true]; split_ifs <;> omega
        · simp
        · simp only [hp, if_true]; split_ifs <;> omega
      rw [choose, pick_iff.mpr ⟨hmem, hrank, hahead⟩, Option.bind_some]
      split
      · next hw =>
        rcases hm with ⟨rfl, -⟩ | ⟨rfl | hp, -⟩
        · rfl
        · exact absurd rfl hw.1
        · exact absurd hw.2 hp.not_wildcard
      · next hw =>
        have hmatch : Matches ps segs := by
          rcases hm with ⟨rfl, hwild⟩ | ⟨-, hmatch⟩
          · have hps : p = s := not_not.mp fun hne => hw ⟨hne, hwild⟩
            rw [hlit rfl hwild hps]
            trivial
          · exact hmatch
        rw [ih.mpr ⟨hreg, hmatch, hun⟩, Option.map_some]

theorem choose_congr : ∀ (segs : List Bytes) {f g : List Bytes → List Bytes},
    (∀ pre s, pick (f pre) s = pick (g pre) s) → choose f segs = choose g segs
  | [], _, _, _ => rfl
  | s :: segs, f, g, h => by
    rw [choose, choose, h [] s]
    congr 1
    funext p
    rw [choose_congr segs fun pre => h (p :: pre)]

/-! ## After any calls -/

theorem choose_addAll (regs : List (Registration H)) (segs : List Bytes) :
    choose (Router.addAll regs).nexts segs = choose (followers regs) segs := by
  apply choose_congr
  intro pre s
  simp only [pick, Router.nexts_addAll, find?_foldl_insertEnd, List.nil_append]

theorem next?_append (pre : List Bytes) (p : Bytes) (post : List Bytes) :
    next? pre (pre ++ p :: post) = some p := by
  induction pre with
  | nil => rfl
  | cons q pre ih => simpa [next?] using ih

theorem registered_of_mem {regs : List (Registration H)} {a : Registration H} (ha : a ∈ regs) :
    Registered (followers regs) (segments a.pattern) := by
  intro pre p post h
  exact List.mem_filterMap.mpr ⟨a, ha, h ▸ next?_append pre p post⟩

theorem lastAdd_isSome {regs : List (Registration H)} {a : Registration H} (ha : a ∈ regs) :
    ∃ handler, lastAdd regs a.method (segments a.pattern) = some handler := by
  have : (regs.reverse.find? fun b =>
      b.method = a.method ∧ segments b.pattern = segments a.pattern).isSome := by
    rw [List.find?_isSome]
    exact ⟨a, List.mem_reverse.mpr ha, by simp⟩
  obtain ⟨b, hb⟩ := Option.isSome_iff_exists.mp this
  exact ⟨b.handler, by simp only [lastAdd, hb, Option.map_some]⟩

/-- `a` is registered for the method of `req` and its pattern matches the path. -/
def Registration.Fits (a : Registration H) (req : HttpRequest) : Prop :=
  a.method = req.method.str ∧ Matches (segments a.pattern) (segments req.path)

instance (a : Registration H) (req : HttpRequest) : Decidable (a.Fits req) :=
  inferInstanceAs (Decidable (_ ∧ _))

theorem route_isSome_iff {regs : List (Registration H)} (hregs : ∀ a ∈ regs, a.handler.isSome)
    (req : HttpRequest) (resp : HttpResponse) :
    (∃ h, ((Router.addAll regs).route req resp).1 = some h) ↔
      ∃ a ∈ regs, a.Fits req ∧
        Unshadowed (followers regs) (segments a.pattern) (segments req.path) := by
  rw [Router.route_fst (Router.wf_addAll regs), choose_addAll]
  simp only [Option.join_eq_some_iff, Option.bind_eq_some_iff, Router.stored_addAll, choose_iff]
  constructor
  · rintro ⟨h, segs, ⟨-, hm, hun⟩, hlast⟩
    obtain ⟨a, ha, hmethod, rfl, -⟩ := lastAdd_mem hlast
    exact ⟨a, ha, ⟨hmethod, hm⟩, hun⟩
  · rintro ⟨a, ha, ⟨hmethod, hm⟩, hun⟩
    obtain ⟨handler, hlast⟩ := lastAdd_isSome ha
    obtain ⟨b, hb, -, -, rfl⟩ := lastAdd_mem hlast
    obtain ⟨h, hh⟩ := Option.isSome_iff_exists.mp (hregs b hb)
    exact ⟨h, _, ⟨registered_of_mem ha, hm, hun⟩, by rw [← hmethod, hlast, hh]⟩

/-- **Router completeness.** With non-null handlers, a request that some registered
pattern fits is sure to get a handler exactly when, if any pattern fits it, an unshadowed one
does. -/
theorem route_complete_iff {regs : List (Registration H)}
    (hregs : ∀ a ∈ regs, a.handler.isSome) (req : HttpRequest) (resp : HttpResponse) :
    ((∃ a ∈ regs, a.Fits req) → ∃ h, ((Router.addAll regs).route req resp).1 = some h) ↔
      ((∃ a ∈ regs, a.Fits req) → ∃ a ∈ regs, a.Fits req ∧
        Unshadowed (followers regs) (segments a.pattern) (segments req.path)) := by
  rw [route_isSome_iff hregs req resp]

/-- Two routes that differ in method and in the name of their parameter. -/
def userRoutes : List (Registration Unit) :=
  [⟨bytes "GET", bytes "/users/:id", some ()⟩, ⟨bytes "DELETE", bytes "/users/:uid", some ()⟩]

theorem userRoutes_get :
    ((∃ a ∈ userRoutes, a.Fits { method := .get, path := bytes "/users/7" }) → ∃ h,
      ((Router.addAll userRoutes).route { method := .get, path := bytes "/users/7" } {}).1 =
        some h) ↔
    ((∃ a ∈ userRoutes, a.Fits { method := .get, path := bytes "/users/7" }) →
      ∃ a ∈ userRoutes, a.Fits { method := .get, path := bytes "/users/7" } ∧
        Unshadowed (followers userRoutes) (segments a.pattern) (segments (bytes "/users/7"))) :=
  route_complete_iff (by decide) _ _

/-- `DELETE /users/7` fits the second route, but the walk goes to `:id`, which has only `GET`. -/
theorem userRoutes_delete :
    ¬ ((∃ a ∈ userRoutes, a.Fits { method := .httpDelete, path := bytes "/users/7" }) → ∃ h,
      ((Router.addAll userRoutes).route
        { method := .httpDelete, path := bytes "/users/7" } {}).1 = some h) := by
  intro h
  obtain ⟨u, hu⟩ := h (by decide)
  exact absurd hu (by cases u; decide)

end Hound.Http
