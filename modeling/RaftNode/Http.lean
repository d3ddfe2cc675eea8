import RaftNode.Error
import RaftNode.MediaType
import RaftNode.Wire
/-!
# Nodes over HTTP

Peers post their requests as JSON, one path for each kind; anyone may get the status.
-/
namespace RaftNode

structure HttpRequest where
  method : String
  /-- The path, which a query may follow and a scheme and an authority precede. -/
  target : String
  contentType : Option String
  body : Bytes
  deriving DecidableEq, Repr

inductive HttpAction where
  | ask (q : Request)
  | showStatus
  /-- Whether the status would be shown. -/
  | probeStatus
  /-- Nothing: it is refused with a status code. -/
  | refuse (code : Nat)
  deriving DecidableEq, Repr

inductive HttpResponse where
  | json (body : Json)
  | text (code : Nat) (body : String)
  /-- A success that has no body. -/
  | empty
  | refused (code : Nat)

namespace HttpRequest

/-- The path that opens a text, before a query or a fragment. -/
def pathAhead (cs : List Char) : List Char := cs.takeWhile fun c => c ≠ '?' && c ≠ '#'

def isSchemeChar (c : Char) : Bool := c.isAlphanum || c = '+' || c = '-' || c = '.'

/-- The path of a target: the target itself if that opens with a slash, or what follows the authority after a
scheme. A target of another form has none. -/
def path (r : HttpRequest) : String :=
  let cs := r.target.toList
  match cs.head?, cs.dropWhile isSchemeChar with
  | some '/', _ => String.ofList (pathAhead cs)
  | _, ':' :: '/' :: '/' :: rest =>
    String.ofList (pathAhead (rest.dropWhile fun c => c ≠ '/' && c ≠ '?' && c ≠ '#'))
  | _, _ => ""

def bodyLimit : Nat := 2 * 1024 * 1024

/-- The request that the body of a post opens with. -/
def posted [Wire α] (wrap : α → Request) (r : HttpRequest) : HttpAction :=
  if r.method ≠ "POST" then .refuse 405
  else if !r.contentType.any MediaType.isJson then .refuse 415
  else if bodyLimit < r.body.length then .refuse 413
  else
    match Wire.decodeAhead r.body with
    | .ok q => .ask (wrap q)
    | .error .malformed => .refuse 400
    | .error .mismatch => .refuse 422

def action (r : HttpRequest) : HttpAction :=
  match r.path with
  | "/raft/request_vote" => r.posted .vote
  | "/raft/append_entries" => r.posted .append
  | "/raft/install_snapshot" => r.posted .install
  | "/raft/status" =>
    if r.method = "GET" then .showStatus
    else if r.method = "HEAD" then .probeStatus
    else .refuse 405
  | _ => .refuse 404

end HttpRequest

def Reply.toJson : Reply → Json
  | .vote r => Wire.toJson r
  | .append r => Wire.toJson r
  | .install r => Wire.toJson r

def HttpResponse.ofReply : Except NodeError Reply → HttpResponse
  | .ok r => .json r.toJson
  | .error .stopped => .text 503 NodeError.stopped.message
  | .error e => .text 500 e.message

end RaftNode
