import RaftNode.Address
import RaftNode.Http
/-!
# Calls over HTTP

A node calls a peer by a post of its request, over a connection that the reply ends. A reply counts if its code
tells of success and its body can be read; otherwise the peer was not reached.
-/
namespace RaftNode

def Request.path : Request → String
  | .vote _ => "/raft/request_vote"
  | .append _ => "/raft/append_entries"
  | .install _ => "/raft/install_snapshot"

def Request.toJson : Request → Json
  | .vote r => Wire.toJson r
  | .append r => Wire.toJson r
  | .install r => Wire.toJson r

def Request.callText (q : Request) (a : Address) : Bytes :=
  let body := q.toJson.render
  let lines := ["POST " ++ q.path ++ " HTTP/1.1", "Host: " ++ a.toText, "Content-Type: application/json",
    "Content-Length: " ++ toString body.length, "Connection: close", "", ""]
  Bytes.ofString ("\r\n".intercalate lines) ++ body

def Request.reply? (q : Request) (body : Bytes) : Option Reply :=
  match q with
  | .vote _ => (Wire.decode body).toOption.map Reply.vote
  | .append _ => (Wire.decode body).toOption.map Reply.append
  | .install _ => (Wire.decode body).toOption.map Reply.install

structure HttpReceived where
  code : Nat
  body : Bytes
  deriving DecidableEq, Repr

namespace HttpReceived

def splitHead? : Bytes → Option (Bytes × Bytes)
  | 0x0D :: 0x0A :: 0x0D :: 0x0A :: body => some ([], body)
  | b :: rest => (splitHead? rest).map fun parts => (b :: parts.1, parts.2)
  | [] => none

def code? (head : Bytes) : Option Nat :=
  let digits := ((head.dropWhile (· ≠ 0x20)).drop 1).take 3
  if digits.length = 3 && digits.all Bytes.isDigit then some (Bytes.digitsValue digits) else none

def parse? (text : Bytes) : Option HttpReceived := do
  let (head, body) ← splitHead? text
  return { code := ← code? head, body }

end HttpReceived

/-- What the sender of a message learns from the text that came back. -/
def Outbound.heard (m : Outbound) (text : Bytes) : Response :=
  match HttpReceived.parse? text with
  | some r =>
    if 200 ≤ r.code && r.code < 300 then ((m.request.reply? r.body).bind m.response?).getD m.lost else m.lost
  | none => m.lost

end RaftNode
