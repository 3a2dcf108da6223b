import Hound.Http.ConnectionRuns
import Hound.Lib.Walk
import Mathlib.Data.List.DropRight

/-!
# Where static files are opened

`handle_request` opens `static_dir_ + req.path()` and looks at neither. Resolving a path
lexically makes it a `Walk`, from the root for an absolute path. `opens_inside_iff`: the opened
file lies inside the static directory exactly if what the target adds to it, resolved
by itself, leads back down by name into every directory it climbed out of.
-/

namespace Hound.Http

open Lib Connection

variable {H : Type} {env : ServerEnv H} {dir path p : Bytes}

/-! ## Lexical resolution -/

def isAbsolute (path : Bytes) : Bool := path.head? = some 47

/-- The segments of a path, `.` left out and `..` as a move up. -/
def moves (path : Bytes) : List (Move Bytes) :=
  (segments path).filterMap fun seg =>
    if seg = bytes "." then none else if seg = bytes ".." then some .up else some (.down seg)

def resolve (path : Bytes) : Walk Bytes := Walk.follow {} (moves path)

/-- `path` leads to `dir` or to something below it. Above the root there is nothing, so moves up
from it do not count. -/
structure Inside (dir path : Bytes) : Prop where
  root : isAbsolute path = isAbsolute dir
  ups : isAbsolute dir = false → (resolve path).ups = (resolve dir).ups
  names : (resolve dir).names <+: (resolve path).names

theorem segments_append_slash (a b : Bytes) :
    segments (a ++ 47 :: b) = segments a ++ segments b := by
  rw [segments, List.splitOn_append_cons_self, List.filter_append]
  rfl

theorem segments_cons_slash (b : Bytes) : segments (47 :: b) = segments b :=
  segments_append_slash [] b

theorem segments_append_of_last {a : Bytes} (h : a = [] ∨ a.getLast? = some 47) (b : Bytes) :
    segments (a ++ b) = segments a ++ segments b := by
  rcases h with rfl | h
  · rfl
  · obtain ⟨a', rfl⟩ := List.getLast?_eq_some_iff.mp h
    rw [List.append_assoc, List.singleton_append, segments_append_slash, segments_append_slash]
    exact congrArg (· ++ segments b) (List.append_nil _).symm

theorem resolve_append (h : segments (p ++ path) = segments p ++ segments path) :
    resolve (p ++ path) = (resolve p).andThen (resolve path) := by
  rw [resolve, moves, h, List.filterMap_append, Walk.follow_append]
  rfl

/-! ## The target and the directory -/

def lastName (dir : Bytes) : Bytes := dir.rtakeWhile (· ≠ 47)

def stem (dir : Bytes) : Bytes := dir.rdropWhile (· ≠ 47)

/-- Where the target's own segments begin: behind `dir` if it begins with a slash, and else in
the last name of `dir`, which it goes on with. -/
def seam (dir path : Bytes) : Bytes × Bytes :=
  if isAbsolute path then (dir, []) else (stem dir, lastName dir)

theorem stem_append_lastName (dir : Bytes) : stem dir ++ lastName dir = dir :=
  List.rdropWhile_append_rtakeWhile

theorem stem_last (dir : Bytes) : stem dir = [] ∨ (stem dir).getLast? = some 47 := by
  by_cases h : stem dir = []
  · exact .inl h
  · have hlast := List.rdropWhile_last_not (fun c : Byte => decide (c ≠ 47)) dir h
    refine .inr ?_
    rw [List.getLast?_eq_getLast_of_ne_nil h]
    simpa [stem] using hlast

theorem notMem_lastName (dir : Bytes) : 47 ∉ lastName dir := by
  intro h
  simpa using List.mem_rtakeWhile_imp h

theorem resolve_lastName (dir : Bytes) :
    (resolve (lastName dir)).ups = 0 ∨ (resolve (lastName dir)).names = [] := by
  have hsplit : (lastName dir).splitOn 47 = [lastName dir] :=
    List.splitOn_eq_singleton (notMem_lastName dir)
  have hseg : segments (lastName dir) = [lastName dir].filter (· ≠ []) := by
    rw [segments, hsplit]
  by_cases h0 : lastName dir = []
  · exact .inl (by rw [resolve, moves, hseg, h0]; rfl)
  · rw [List.filter_cons_of_pos (by simpa using h0), List.filter_nil] at hseg
    by_cases h1 : lastName dir = bytes "."
    · exact .inl (by rw [resolve, moves, hseg, h1]; rfl)
    · by_cases h2 : lastName dir = bytes ".."
      · exact .inr (by rw [resolve, moves, hseg, h2]; rfl)
      · exact .inl (by simp [resolve, moves, hseg, h1, h2, Walk.follow, Walk.move])

theorem seam_dir (dir path : Bytes) :
    (seam dir path).1 ++ (seam dir path).2 = dir ∧
      resolve dir = (resolve (seam dir path).1).andThen (resolve (seam dir path).2) ∧
      ((resolve (seam dir path).2).ups = 0 ∨ (resolve (seam dir path).2).names = []) := by
  unfold seam
  split
  · exact ⟨List.append_nil dir, (Walk.andThen_start _).symm, .inl rfl⟩
  · refine ⟨stem_append_lastName dir, ?_, resolve_lastName dir⟩
    conv => lhs; rw [← stem_append_lastName dir]
    exact resolve_append (segments_append_of_last (stem_last dir) _)

/-- The path that is opened, resolved: from the seam on it goes where the target's own part
leads. -/
theorem resolve_join (dir path : Bytes) :
    resolve (dir ++ path) =
      (resolve (seam dir path).1).andThen (resolve ((seam dir path).2 ++ path)) := by
  unfold seam
  split
  · next h =>
    cases path with
    | nil => cases h
    | cons c rest =>
      obtain rfl : c = 47 := by simpa [isAbsolute] using h
      refine resolve_append ?_
      rw [segments_append_slash, segments_cons_slash]
  · conv => lhs; rw [← stem_append_lastName dir, List.append_assoc]
    exact resolve_append (segments_append_of_last (stem_last dir) _)

/-- The target's own part climbs no higher than it comes down again, and comes down by the
names of the static directory. -/
def Confined (dir path : Bytes) : Prop :=
  let base := resolve (seam dir path).1
  let own := resolve ((seam dir path).2 ++ path)
  (isAbsolute dir = false → base.ups + (own.ups - base.names.length) = (resolve dir).ups) ∧
    (resolve dir).names.drop (base.names.length - own.ups) <+: own.names

theorem inside_iff_confined (hdir : dir ≠ []) : Inside dir (dir ++ path) ↔ Confined dir path := by
  obtain ⟨-, hd, ht⟩ := seam_dir dir path
  have hroot : isAbsolute (dir ++ path) = isAbsolute dir := by
    unfold isAbsolute
    rw [List.head?_append_of_ne_nil _ hdir]
  have hnames := Walk.prefix_andThen_iff (w := resolve (seam dir path).1)
    (v := resolve ((seam dir path).2 ++ path)) ht
  rw [← hd, ← resolve_join] at hnames
  have hups : (resolve (dir ++ path)).ups = (resolve (seam dir path).1).ups +
      ((resolve ((seam dir path).2 ++ path)).ups - (resolve (seam dir path).1).names.length) := by
    rw [resolve_join]
    rfl
  constructor
  · intro h
    exact ⟨fun hrel => hups ▸ h.ups hrel, hnames.mp h.names⟩
  · intro h
    exact ⟨hroot, fun hrel => hups.trans (h.1 hrel), hnames.mpr h.2⟩

/-- A target that begins with a slash is confined exactly if it climbs no higher than the
static directory is deep, and comes down by its last names. -/
theorem confined_slash_iff (h : isAbsolute path = true) : Confined dir path ↔
    (isAbsolute dir = false → (resolve path).ups ≤ (resolve dir).names.length) ∧
      (resolve dir).names.drop ((resolve dir).names.length - (resolve path).ups) <+:
        (resolve path).names := by
  unfold Confined seam
  rw [if_pos h]
  simp only [List.nil_append]
  refine and_congr (forall_congr' fun _ => ?_) Iff.rfl
  omega

/-! ## `handle_request` -/

def cString (s : Bytes) : Bytes := s.takeWhile (· ≠ 0)

theorem cString_eq_self (h : 0 ∉ p) : cString p = p :=
  List.takeWhile_eq_self_iff.mpr fun c hc => by
    have : c ≠ 0 := fun h0 => h (h0 ▸ hc)
    simpa using this

theorem cString_append_of_mem (h : 0 ∈ dir) (path : Bytes) :
    cString (dir ++ path) = cString dir := by
  obtain ⟨front, back, rfl⟩ := List.append_of_mem h
  simp [cString, List.takeWhile_append]

theorem cString_append (h : 0 ∉ dir) (path : Bytes) :
    cString (dir ++ path) = dir ++ cString path := by
  rw [cString, List.takeWhile_append_of_pos]
  · rfl
  · intro c hc
    have : c ≠ 0 := fun h0 => h (h0 ▸ hc)
    simpa using this

theorem Inside.refl (dir : Bytes) : Inside dir dir := ⟨rfl, fun _ => rfl, List.prefix_rfl⟩

/-- The name of the file that `handle_request` opens for the request of the parser, if it opens
one. -/
def Connection.opens (env : ServerEnv H) (c : Connection H) : Option Bytes :=
  let req := c.parser.request
  if (env.router.route req {}).1.isNone ∧ env.staticDir ≠ [] ∧ req.method = .get then
    (env.file c.turn (env.staticDir ++ req.path)).map fun _ => cString (env.staticDir ++ req.path)
  else none

theorem opens_eq {c : Connection H} (h : c.opens env = some p) :
    env.staticDir ≠ [] ∧ p = cString (env.staticDir ++ c.parser.request.path) := by
  simp only [opens, Option.ite_none_right_eq_some, Option.map_eq_some_iff] at h
  obtain ⟨⟨-, hdir, -⟩, file, -, rfl⟩ := h
  exact ⟨hdir, rfl⟩

theorem respond_of_opens {c : Connection H} (h : c.opens env = some p) :
    ∃ file, env.file c.turn (env.staticDir ++ c.parser.request.path) = some file ∧
      c.respond env c.parser.request = (none, .ok file.data (bytes "text/html")) := by
  simp only [opens, Option.ite_none_right_eq_some, Option.map_eq_some_iff] at h
  obtain ⟨⟨hroute, hget⟩, file, hfile, rfl⟩ := h
  refine ⟨file, hfile, ?_⟩
  rw [Option.isNone_iff_eq_none] at hroute
  simp only [respond, hroute, if_pos hget, hfile]

/-- **Static files.** The file that a request opens lies inside the static directory exactly if
the target is confined to it (or its name ends within `static_dir_`, at a NUL). -/
theorem opens_inside_iff (env : ServerEnv H) (c : Connection H) :
    (∀ p, c.opens env = some p → Inside (cString env.staticDir) p) ↔
      ∀ p, c.opens env = some p →
        0 ∈ env.staticDir ∨ Confined env.staticDir (cString c.parser.request.path) := by
  refine forall_congr' fun p => forall_congr' fun h => ?_
  obtain ⟨hdir, rfl⟩ := opens_eq h
  by_cases h0 : 0 ∈ env.staticDir
  · rw [cString_append_of_mem h0]
    exact iff_of_true (Inside.refl _) (.inl h0)
  · rw [cString_append h0, cString_eq_self h0, or_iff_right h0]
    exact inside_iff_confined hdir

/-- A server with static files in `/srv/www`, and one more file beside it. -/
def filesEnv : ServerEnv Unit :=
  { idleEnv with
    staticDir := bytes "/srv/www"
    file := fun _ path =>
      if path = bytes "/srv/www/../key" then some ⟨bytes "secret", false⟩ else none }

/-- `GET /../key` opens the file beside the static directory and sends it. -/
theorem opens_outside :
    (∃ c : Connection Unit, c.parser.request.path = bytes "/../key" ∧
      c.opens filesEnv = some (bytes "/srv/www/../key") ∧
      ¬ Inside filesEnv.staticDir (bytes "/srv/www/../key")) ∧
    (({} : Connection Unit).onMessage filesEnv
      (.data (bytes "GET /../key HTTP/1.1\r\n\r\n"))).1.log.any (fun e => match e with
        | .send raw _ => bytes "secret" <:+ raw
        | _ => false) = true := by
  refine ⟨⟨{ parser := { request := { method := .get, path := bytes "/../key" } } }, rfl, by
    decide +kernel, fun h => ?_⟩, by decide +kernel⟩
  exact absurd h.names (by decide +kernel)

end Hound.Http
