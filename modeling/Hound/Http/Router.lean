import Hound.Http.Response

/-!
# `Router`

The trie of `http/router.h`, `.cpp`. A `Handler` is a `std::function` and may be null:
it is an `Option H` for some type `H` of callables. The parameter captures that `route`
collects stay in a local map that nothing reads; they are left out.
-/

namespace Hound.Http

/-- A trie node. Its children are searched in the order they were added. -/
structure Node (H : Type) where
  segment : Bytes := []
  isParam : Bool := false
  isWildcard : Bool := false
  handlers : AList fun _ : Bytes => Option H := ∅
  children : List (Node H) := []

def segments (path : Bytes) : List Bytes := (path.splitOn 47).filter (· ≠ [])

namespace Node

variable {H : Type}

/-- The node `add` creates for a segment. -/
def ofSegment (seg : Bytes) : Node H :=
  { segment := seg, isParam := seg.head? = some 58, isWildcard := seg.head? = some 42 }

/-- `Router::add` from this node on: walk or build the path, then set the handler. -/
def add (method : Bytes) (handler : Option H) : List Bytes → Node H → Node H
  | [], node => { node with handlers := node.handlers.insert method handler }
  | seg :: segs, node =>
    match node.children.findIdx? (·.segment = seg) with
    | some i => { node with children := node.children.modify i (add method handler segs) }
    | none => { node with children := node.children ++ [add method handler segs (ofSegment seg)] }

/-- The walk of `Router::route`: exact match first, then the first `:` child, then the
first `*` child, which takes all that is left. -/
def walk : List Bytes → Node H → Option (Node H)
  | [], node => some node
  | seg :: segs, node =>
    match node.children.find? (·.segment = seg) with
    | some child => child.walk segs
    | none =>
      match node.children.find? (·.isParam) with
      | some child => child.walk segs
      | none => node.children.find? (·.isWildcard)

end Node

/-- `root_`, null until the first `add`. -/
structure Router (H : Type) where
  root : Option (Node H) := none

namespace Router

variable {H : Type}

def add (router : Router H) (method pattern : Bytes) (handler : Option H) : Router H :=
  { root := some ((router.root.getD {}).add method handler (segments pattern)) }

/-- `Router::route`: the handler, and `*resp` as it leaves it. -/
def route (router : Router H) (req : HttpRequest) (resp : HttpResponse) :
    Option H × HttpResponse :=
  match router.root with
  | none => (none, resp)
  | some root =>
    match root.walk (segments req.path) with
    | none => (none, .notFound (bytes "404 Not Found: " ++ req.path))
    | some node =>
      match node.handlers.lookup req.method.str with
      | some handler => (handler, resp)
      | none =>
        if node.handlers.entries ≠ [] then (none, .notFound (bytes "405 Method Not Allowed"))
        else (none, .notFound (bytes "404 Not Found: " ++ req.path))

end Router

end Hound.Http
