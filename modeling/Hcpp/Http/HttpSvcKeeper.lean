import Hcpp.Http.HttpMsg

/-!
# Reading a response head

http_svc_keeper.cpp: `response_line::parser_response_line` loads up to the
first CRLFCRLF and takes the status line off the memory;
`response_headers::parser_headers` takes the rest of the head from what
`get_some` finds there.  The lengths come from the view the load returned.
-/

namespace Hcpp

structure HttpResponse where
  headers : Headers
  bodySize : Nat
  chunkCoding : Bool
  responseLine : List Char
  responseHeaderStr : List Char
deriving DecidableEq, Repr

def HttpResponse.empty : HttpResponse where
  headers := []
  bodySize := 0
  chunkCoding := false
  responseLine := []
  responseHeaderStr := []

/-- `msg.substr(0, msg.find("\r\n") + 2)`; `npos + 2` is 1. -/
def firstLine (msg : List Char) : List Char :=
  match Search.find crlf msg with
  | some p => msg.take (p + 2)
  | none => msg.take 1

/-- The memory, the response with its line, and `header_end_`. -/
def parserResponseLine (m : Memory) (r : HttpResponse) : Outcome (Memory × HttpResponse × Nat) := do
  let (m, msg) ← m.asyncLoadUntil crlfcrlf
  let line := firstLine msg
  return (m.removeSome line.length, { r with responseLine := line },
    toSizeT (msg.length - line.length - 2))

/-- Whether `Transfer-Encoding` was seen with `chunked` in its line. -/
def hasChunked (h : Headers) : Bool :=
  match h.find "transfer-encoding".toList with
  | some line => (Search.find "chunked".toList line).isSome
  | none => false

/-- The body mode the header fields ask for: `chunk_coding_` and `body_size_`. -/
def bodyFields (h : Headers) : Bool × Nat :=
  if hasChunked h then (true, 0)
  else
    match msgBodySize h with
    | some s => (false, s)
    | none => (false, 0)

/-- The memory, the response, and whether the header block was accepted. -/
def parserResponseHeaders (m : Memory) (r : HttpResponse) (headerEnd : Nat) :
    Outcome (Memory × HttpResponse × Bool) := do
  let sv := m.getSome
  let r := { r with responseHeaderStr := sv.take (toSizeT (headerEnd + 2)) }
  let (accepted, headers) ← parserHeader (sv.take headerEnd) r.headers
  let r := { r with headers := headers }
  if accepted then
    let (chunkCoding, bodySize) := bodyFields headers
    return (m.removeSome (toSizeT (headerEnd + 2)),
      { r with chunkCoding := chunkCoding, bodySize := bodySize }, true)
  else return (m, r, false)

/-- The two in a row. -/
def parserResponse (m : Memory) : Outcome (Memory × HttpResponse × Bool) := do
  let (m, r, headerEnd) ← parserResponseLine m HttpResponse.empty
  parserResponseHeaders m r headerEnd

end Hcpp
