import Hound.Http.Request
import Hound.Lib.Search

/-!
# Key-value texts

`query_params`, `form_data` and `cookie` read a text of `key=value` items with `std::getline`.
Items that hold an `=` are never empty, so joined by a delimiter that none of them holds they
are what `getline` gives back (`getlines_intercalate`), and the first `=` of an item is the
one behind its key. From this follow the round trip of query strings and forms
(`key_values_round_trip`) and the cookie lookup (`cookie_exact`).
-/

namespace Hound.Http

open Lib HttpRequest

variable {delim : Byte} {l rest : Bytes}

/-! ## Lines -/

theorem getlines_cons (hl : delim ∉ l) (rest : Bytes) :
    getlines delim (l ++ delim :: rest) = l :: getlines delim rest := by
  induction l with
  | nil => rw [List.nil_append, getlines, if_pos rfl]
  | cons b l ih =>
    have hb : b ≠ delim := fun h => hl (h ▸ List.mem_cons_self)
    rw [List.cons_append, getlines, if_neg hb, ih fun h => hl (List.mem_cons_of_mem _ h)]

theorem getlines_single (hl : delim ∉ l) (hne : l ≠ []) : getlines delim l = [l] := by
  induction l with
  | nil => exact absurd rfl hne
  | cons b l ih =>
    have hb : b ≠ delim := fun h => hl (h ▸ List.mem_cons_self)
    rw [getlines, if_neg hb]
    cases l with
    | nil => rfl
    | cons c l => rw [ih (fun h => hl (List.mem_cons_of_mem _ h)) (List.cons_ne_nil c l)]

theorem getlines_intercalate : ∀ {ls : List Bytes}, (∀ l ∈ ls, l ≠ [] ∧ delim ∉ l) →
    getlines delim ([delim].intercalate ls) = ls
  | [], _ => rfl
  | [l], h => by
    obtain ⟨hne, hl⟩ := h l List.mem_cons_self
    rw [List.intercalate_singleton, getlines_single hl hne]
  | l :: l' :: ls, h => by
    obtain ⟨⟨-, hl⟩, hrest⟩ := List.forall_mem_cons.mp h
    rw [List.intercalate_cons_cons, List.append_assoc, List.singleton_append, getlines_cons hl,
      getlines_intercalate hrest]

/-! ## Pairs -/

def pairText (p : Bytes × Bytes) : Bytes := p.1 ++ 61 :: p.2

theorem pairText_ne_nil (p : Bytes × Bytes) : pairText p ≠ [] := by
  simp [pairText]

theorem idxOf?_pairText {p : Bytes × Bytes} (h : (61 : Byte) ∉ p.1) :
    (pairText p).idxOf? 61 = some p.1.length ∧ (pairText p).take p.1.length = p.1 ∧
      (pairText p).drop (p.1.length + 1) = p.2 :=
  ⟨idxOf?_append_cons p.2 h, List.take_left, by rw [pairText, List.drop_length_add_append]; rfl⟩

/-- `k1=v1&k2=v2&…` -/
def pairsText (pairs : List (Bytes × Bytes)) : Bytes := [38].intercalate (pairs.map pairText)

def MapOf (m : StringMap) (pairs : List (Bytes × Bytes)) : Prop :=
  ∀ k v, m.lookup k = some v ↔ (k, v) ∈ pairs

def IsForm (r : HttpRequest) : Prop :=
  bytes "application/x-www-form-urlencoded" <:+: r.header (bytes "Content-Type")

/-- Storing pairs with different keys that the map does not have yet. -/
theorem lookup_foldl_insert (k v : Bytes) : ∀ {pairs : List (Bytes × Bytes)} {m : StringMap},
    (pairs.map Prod.fst).Nodup → (∀ p ∈ pairs, m.lookup p.1 = none) →
      ((pairs.foldl (fun m p => m.insert p.1 p.2) m).lookup k = some v ↔
        m.lookup k = some v ∨ (k, v) ∈ pairs)
  | [], m, _, _ => by simp
  | (k', v') :: pairs, m, hnodup, hnew => by
    obtain ⟨hk', hrest⟩ := List.nodup_cons.mp hnodup
    obtain ⟨hnone, hnew'⟩ := List.forall_mem_cons.mp hnew
    have hstill : ∀ p ∈ pairs, (m.insert k' v').lookup p.1 = none := by
      intro p hp
      have hne : p.1 ≠ k' := fun h => hk' (List.mem_map.mpr ⟨p, hp, h⟩)
      rw [AList.lookup_insert_ne hne]
      exact hnew' p hp
    rw [List.foldl_cons, lookup_foldl_insert k v hrest hstill, List.mem_cons, Prod.mk.injEq]
    by_cases hk : k = k'
    · subst hk
      rw [AList.lookup_insert, hnone]
      simp [eq_comm]
    · rw [AList.lookup_insert_ne hk]
      simp [hk]

theorem keyValues_pairsText {pairs : List (Bytes × Bytes)} (hkeys : (pairs.map Prod.fst).Nodup)
    (hpairs : ∀ p ∈ pairs, (61 : Byte) ∉ p.1 ∧ (38 : Byte) ∉ p.1 ∧ (38 : Byte) ∉ p.2) :
    MapOf (keyValues (pairsText pairs)) pairs := by
  have hlines : getlines 38 (pairsText pairs) = pairs.map pairText := by
    refine getlines_intercalate fun l hl => ?_
    obtain ⟨p, hp, rfl⟩ := List.mem_map.mp hl
    obtain ⟨-, hk, hv⟩ := hpairs p hp
    exact ⟨pairText_ne_nil p, by simp [pairText, hk, hv]⟩
  have hfold : keyValues (pairsText pairs) = pairs.foldl (fun m p => m.insert p.1 p.2) ∅ := by
    rw [keyValues, hlines, List.foldl_map]
    refine List.foldl_ext _ _ _ fun m p hp => ?_
    obtain ⟨hidx, htake, hdrop⟩ := idxOf?_pairText (hpairs p hp).1
    rw [hidx]
    simp only [htake, hdrop]
  intro k v
  rw [hfold, lookup_foldl_insert k v hkeys fun _ _ => rfl]
  simp

/-- **Query strings and forms.** Pairs with different keys are read back from their text, and
the two readers agree on every text. -/
theorem key_values_round_trip :
    (∀ pairs : List (Bytes × Bytes), (pairs.map Prod.fst).Nodup →
      (∀ p ∈ pairs, (61 : Byte) ∉ p.1 ∧ (38 : Byte) ∉ p.1 ∧ (38 : Byte) ∉ p.2) →
      ∀ r : HttpRequest, (r.query = pairsText pairs → MapOf r.queryParams pairs) ∧
        (r.body = pairsText pairs → IsForm r → MapOf r.formData pairs)) ∧
    ∀ (text : Bytes) (r r' : HttpRequest), r.query = text → r'.body = text → IsForm r' →
      r.queryParams = r'.formData := by
  have hquery : ∀ r : HttpRequest, r.queryParams = keyValues r.query := by
    intro r
    rw [queryParams]
    split
    · next h => rw [h]; rfl
    · rfl
  have hform : ∀ {r : HttpRequest}, IsForm r → r.formData = keyValues r.body := fun h => if_pos h
  refine ⟨fun pairs hkeys hpairs r => ⟨fun h => ?_, fun h hr => ?_⟩, fun text r r' h h' hr => ?_⟩
  · rw [hquery, h]
    exact keyValues_pairsText hkeys hpairs
  · rw [hform hr, h]
    exact keyValues_pairsText hkeys hpairs
  · rw [hquery, hform hr, h, h']

/-- An empty key, and a value with an `=`. -/
theorem key_values_round_trip_empty :
    MapOf ({ query := bytes "=&a=b=c" } : HttpRequest).queryParams
      [([], []), (bytes "a", bytes "b=c")] :=
  (key_values_round_trip.1 _ (by decide) (by decide) _).1 rfl

/-! ## Cookies -/

/-- A cookie in a header, behind `gap` spaces. -/
structure CookieItem where
  gap : Nat
  name : Bytes
  value : Bytes
  deriving DecidableEq

def CookieItem.text (i : CookieItem) : Bytes :=
  List.replicate i.gap SP ++ pairText (i.name, i.value)

/-- What `cookie` finds in an item. -/
def cookieOf (name item : Bytes) : Option Bytes :=
  let item := item.dropWhile (· = SP)
  match item.idxOf? 61 with
  | some pos => if item.take pos = name then some (item.drop (pos + 1)) else none
  | none => none

theorem cookie_eq (r : HttpRequest) (name : Bytes) :
    r.cookie name =
      ((getlines 59 (r.header (bytes "Cookie"))).findSome? (cookieOf name)).getD [] := by
  unfold HttpRequest.cookie
  simp only
  split
  · next h => rw [h]; rfl
  · rfl

/-- The spaces in front of an item go, and its name is compared whole. -/
theorem cookieOf_text {i : CookieItem} (heq : (61 : Byte) ∉ i.name)
    (hsp : i.name.head? ≠ some SP) (name : Bytes) :
    cookieOf name i.text = if i.name = name then some i.value else none := by
  have htrim : i.text.dropWhile (· = SP) = pairText (i.name, i.value) := by
    rw [CookieItem.text, List.dropWhile_append_of_pos (by simp)]
    unfold pairText
    cases hn : i.name with
    | nil => rfl
    | cons b n =>
      have hb : b ≠ SP := fun h => hsp (by rw [hn, h]; rfl)
      exact List.dropWhile_cons_of_neg (by simpa using hb)
  obtain ⟨hidx, htake, hdrop⟩ := idxOf?_pairText (p := (i.name, i.value)) heq
  unfold cookieOf
  simp only [htrim, hidx, htake, hdrop]

/-- **Cookie lookup.** The value is that of the first cookie with exactly this name, and empty
if there is none. -/
theorem cookie_exact {items : List CookieItem} {r : HttpRequest}
    (hitems : ∀ i ∈ items, (61 : Byte) ∉ i.name ∧ (59 : Byte) ∉ i.name ∧
      i.name.head? ≠ some SP ∧ (59 : Byte) ∉ i.value)
    (h : r.header (bytes "Cookie") = [59].intercalate (items.map CookieItem.text)) (name : Bytes) :
    (∀ front i back, items = front ++ i :: back → i.name = name →
      (∀ j ∈ front, j.name ≠ name) → r.cookie name = i.value) ∧
    ((∀ i ∈ items, i.name ≠ name) → r.cookie name = []) := by
  have hlines : getlines 59 (r.header (bytes "Cookie")) = items.map CookieItem.text := by
    rw [h]
    refine getlines_intercalate fun l hl => ?_
    obtain ⟨i, hi, rfl⟩ := List.mem_map.mp hl
    obtain ⟨-, hn, -, hv⟩ := hitems i hi
    have hgap : (59 : Byte) ∉ List.replicate i.gap SP := fun hm =>
      absurd (List.eq_of_mem_replicate hm) (by decide)
    exact ⟨by simp [CookieItem.text, pairText_ne_nil],
      by simp [CookieItem.text, pairText, hn, hv, hgap]⟩
  have hother : ∀ {l : List CookieItem}, l ⊆ items → (∀ i ∈ l, i.name ≠ name) →
      (l.map CookieItem.text).findSome? (cookieOf name) = none := by
    intro l hl hne
    rw [List.findSome?_map, List.findSome?_eq_none_iff]
    intro i hi
    obtain ⟨heq, -, hsp, -⟩ := hitems i (hl hi)
    exact (cookieOf_text heq hsp name).trans (if_neg (hne i hi))
  rw [cookie_eq, hlines]
  constructor
  · rintro front i back rfl hi hfront
    obtain ⟨heq, -, hsp, -⟩ := hitems i (by simp)
    rw [List.map_append, List.findSome?_append, hother (by simp) hfront, Option.none_or,
      List.map_cons, List.findSome?_cons, cookieOf_text heq hsp, if_pos hi]
    rfl
  · intro hne
    rw [hother (fun _ hi => hi) hne]
    rfl

/-- A cookie whose value looks like another one, and one whose name begins with `id` as well. -/
def idCookies : List CookieItem :=
  [⟨0, bytes "x", bytes "id=0"⟩, ⟨1, bytes "id2", bytes "1"⟩, ⟨2, bytes "id", bytes "2"⟩,
    ⟨0, bytes "id", bytes "3"⟩]

theorem cookie_exact_id :
    (({} : HttpRequest).addHeader (bytes "Cookie") (bytes "x=id=0; id2=1;  id=2;id=3")).cookie
      (bytes "id") = bytes "2" := by
  have h : (({} : HttpRequest).addHeader (bytes "Cookie")
      (bytes "x=id=0; id2=1;  id=2;id=3")).header (bytes "Cookie") =
        [59].intercalate (idCookies.map CookieItem.text) := by decide
  exact (cookie_exact (by decide) h (bytes "id")).1 (idCookies.take 2) _ _ rfl rfl (by decide)

end Hound.Http
