import Hcpp.Http.HttpSvcKeeper

/-!
# Reading a request head

httpclient.cpp: `request_line::parser_reuqest_line` loads up to the first
CRLFCRLF, cuts the request line into method, host, port, url and version, and
takes the line off the memory; `request_headers::parser_headers` takes the
header block.  When the text before the path is not an endpoint (there is none
in `GET /path`), `svl` is not advanced and host and port stay what they were.
-/

namespace Hcpp

open Regex

inductive Method where
  | connect
  | other
deriving DecidableEq, Repr

/-- `http_request`; `make_request` of an `https_client` presets host and port. -/
structure HttpRequest where
  headers : Headers
  bodySize : Nat
  chunkCoding : Bool
  hasError : Bool
  method : Method
  version : List Char
  methodStr : List Char
  host : List Char
  url : List Char
  urlParamStart : Nat
  port : List Char
deriving DecidableEq, Repr

def HttpRequest.make (host port : List Char) : HttpRequest where
  headers := []
  bodySize := 0
  chunkCoding := false
  hasError := true
  method := .connect
  version := []
  methodStr := []
  host := host
  url := []
  urlParamStart := 0
  port := port

def getMethod (sv : List Char) : Method := if sv = "CONNECT".toList then .connect else .other

/-- `\w` -/
def isWord (c : Char) : Bool :=
  isDigit c || decide ('A' ≤ c ∧ c ≤ 'Z') || decide ('a' ≤ c ∧ c ≤ 'z') || decide (c = '_')

def isHostChar (c : Char) : Bool := isWord c || decide (c = '.') || decide (c = '-')

/-- `^([\w\.\-]+)(:(0|[1-9]\d{0,4}))?` -/
def endpointReg : Re Char :=
  .seq .bol (.seq (.grp 1 (.rep (.cls isHostChar) 1 none))
    (.rep (.grp 2 (.seq (.cls (· = ':'))
      (.grp 3 (.alt (.cls (· = '0'))
        (.seq (.cls fun c => isDigit c && decide (c ≠ '0')) (.rep (.cls isDigit) 0 (some 4)))))))
      0 (some 1)))

/-- `^\d{1,5}\.\d{1,10}$` -/
def versionReg : Re Char :=
  .seq .bol (.seq (.rep (.cls isDigit) 1 (some 5)) (.seq (.cls (· = '.'))
    (.seq (.rep (.cls isDigit) 1 (some 10)) .eol)))

/-- `m[n]`, when the group matched. -/
def group (n : Nat) (caps : Caps Char) : Option (List Char) :=
  (caps.find? fun g => g.1 = n).map Prod.snd

/-- Host and port from the text before the path, and whether it was an endpoint;
`none` when the port is out of range. -/
def parserEndpoint (service : List Char) (h : HttpRequest) : Option (HttpRequest × Bool) :=
  match fullMatch endpointReg service with
  | none => some (h, false)
  | some caps =>
    let h := { h with host := (group 1 caps).getD [] }
    match group 3 caps with
    | none => some ({ h with port := "80".toList }, true)
    | some port => if stoul 10 port > 65535 then none else some ({ h with port := port }, true)

/-- `url_` and `url_param_start_` -/
def setUrl (url : List Char) (h : HttpRequest) : HttpRequest :=
  if url = [] ∧ h.host ≠ [] then { h with url := "/".toList }
  else if url ≠ [] then
    { h with url := url, urlParamStart := (Search.find ['?'] url).getD url.length }
  else { h with url := url }

/-- What is left of the line behind the target: the version. -/
def parserVersion (svl : List Char) (h : HttpRequest) : Option HttpRequest :=
  let h := { h with version := svl.take (svl.length - 2) }
  if "HTTP/".toList.isPrefixOf svl then
    let svl := svl.drop 5
    match Search.find crlf svl with
    | none => none
    | some httpVerEnd =>
      match fullMatch versionReg (svl.take httpVerEnd) with
      | none => none
      | some _ => some h
  else none

/-- The request line `svl`, with its CRLF. -/
def parserLine (svl : List Char) (h : HttpRequest) : Option HttpRequest :=
  match Search.find [' '] svl with
  | none => none
  | some methodEnd =>
    let h := { h with
      methodStr := svl.take methodEnd
      method := getMethod (svl.take methodEnd) }
    let svl := svl.drop (methodEnd + 1)
    match Search.find [' '] svl with
    | none => none
    | some uriEnd =>
      let http := decide (h.method ≠ .connect) && "http://".toList.isPrefixOf svl
      let svl := if http then svl.drop 7 else svl
      let uriEnd := if http then uriEnd - 7 else uriEnd
      let serviceEnd :=
        if h.method ≠ .connect then (Search.find ['/'] (svl.take uriEnd)).getD uriEnd else uriEnd
      match parserEndpoint (svl.take serviceEnd) h with
      | none => none
      | some (h, matched) =>
        let svl := if matched then svl.drop serviceEnd else svl
        let urlEnd := uriEnd - serviceEnd
        let h := if h.method ≠ .connect then setUrl (svl.take urlEnd) h else h
        parserVersion (svl.drop (urlEnd + 1)) h

/-- The memory, and the request with its `header_end_` when the line is accepted. -/
def parserRequestLine (m : Memory) (h : HttpRequest) :
    Outcome (Memory × Option (HttpRequest × Nat)) := do
  let (m, msg) ← m.asyncLoadUntil crlfcrlf
  let svl := firstLine msg
  match parserLine svl h with
  | none => return (m, none)
  | some h => return (m.removeSome svl.length, some (h, toSizeT (msg.length - svl.length - 2)))

/-- The memory, and the request when the header block is accepted. -/
def parserRequestHeaders (m : Memory) (h : HttpRequest) (headerEnd : Nat) :
    Outcome (Memory × Option HttpRequest) := do
  let (accepted, headers) ← parserHeader (m.getSome.take headerEnd) h.headers
  if accepted then
    let (chunkCoding, bodySize) := bodyFields headers
    return (m.removeSome (toSizeT (headerEnd + 2)),
      some { h with headers := headers, chunkCoding := chunkCoding, bodySize := bodySize })
  else return (m, none)

end Hcpp
