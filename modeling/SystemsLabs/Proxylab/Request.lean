import SystemsLabs.Proxylab.Rio
import SystemsLabs.Schemes.Heap
import SystemsLabs.Schemes.Text

/-! @lab proxylab | file:proxy.c (read_request, clienterror) | structure:request parser

    `read_request` fills the six buffers of `doit` as far as it gets; `none` is a buffer it has not
    assigned, whose contents are what the stack held (`Stack`). Using such a buffer is an action of
    its own, so that a trace tells whether it happened. Strings that are built by `strcpy` and
    `strcat` live in arrays of `MAXLINE` bytes; running over one is a `fault`. Writes to the client
    are taken to succeed. -/

namespace Labs.Http
open Schemes

abbrev Bytes := List UInt8

def MAXLINE : ℕ := 8192

def MAXBUF : ℕ := 8192

def user_agent_header : Bytes :=
  str "User-Agent: Mozilla/5.0 (X11; Linux x86_64; rv:3.10.0) Gecko/20191101 Firefox/63.0.1\r\n"

def connection_header : Bytes := str "Connection: close\r\n"

def proxy_connection_header : Bytes := str "Proxy-Connection: close\r\n"

def version_head : Bytes := str "HTTP/1.0\r\n"

/-- The buffers `doit` passes to `read_request`. -/
inductive Buf where
  | host
  | hostname
  | port
  | path
  | uri
  | request
  deriving DecidableEq, Repr

/-- What a thread does that others can see, and its uses of unassigned buffers. -/
inductive Action where
  | toClient (bytes : Bytes)
  | connect (hostname port : Bytes)
  | toServer (bytes : Bytes)
  | unassigned (b : Buf)
  deriving DecidableEq, Repr

/-- Strings found in the unassigned buffers, and in the line buffer from an offset on. -/
structure Stack where
  stale : Buf → Bytes
  line : ℕ → Bytes

def Stack.blank : Stack := ⟨fun _ => [], fun _ => []⟩

/-- The buffers after `read_request`. -/
structure Parsed where
  host : Option Bytes
  hostname : Option Bytes
  port : Option Bytes
  path : Option Bytes
  uri : Option Bytes
  request : Option Bytes
  deriving DecidableEq, Repr

def Parsed.none : Parsed := ⟨.none, .none, .none, .none, .none, .none⟩

/-- The string in a buffer. -/
def Stack.use (stack : Stack) (b : Buf) : Option Bytes → Bytes × List Action
  | some v => (v, [])
  | none => (stack.stale b, [.unassigned b])

/-- `strcat` into an array of `MAXLINE` bytes, `strcpy` when `dst` is empty. -/
def strcat (dst src : Bytes) : Except Stop Bytes :=
  if dst.length + src.length < MAXLINE then .ok (dst ++ src) else .error .fault

/-- The error page: headers, then body. -/
def clienterror (errnum shortmsg longmsg : Bytes) : List Action :=
  let body := str "<!DOCTYPE html>\r\n" ++ str "<html>\r\n" ++
    str "<head><title>Proxy Error</title></head>\r\n" ++
    str "<body bgcolor=\"ffffff\">\r\n" ++
    str "<h1>" ++ errnum ++ str ": " ++ shortmsg ++ str "</h1>\r\n" ++
    str "<p>" ++ longmsg ++ str "</p>\r\n" ++
    str "<hr /><em>The Proxy Web server</em>\r\n" ++ str "</body></html>\r\n"
  if body.length ≥ MAXBUF then []
  else
    let buf := str "HTTP/1.0 " ++ errnum ++ str " " ++ shortmsg ++ str "\r\n" ++
      str "Content-Type: text/html\r\n" ++
      str "Content-Length: " ++ str (toString body.length) ++ str "\r\n\r\n"
    if buf.length ≥ MAXLINE then [] else [.toClient buf, .toClient body]

def badRequest : List Action :=
  clienterror (str "400") (str "Bad Request") (str "Proxy received a malformed request")

def notImplemented : List Action :=
  clienterror (str "501") (str "Not Implemented") (str "Proxy does not implement this method")

/-- `sscanf(uri, "http://%[^/]%s", host, path)` -/
def scanHostPath (uri : Bytes) : Option Bytes × Option Bytes :=
  match scanLit (str "http://") uri with
  | none => (none, none)
  | some rest =>
    match scanUntil 47 rest with
    | none => (none, none)
    | some (host, rest) => (some host, (scanWord rest).map Prod.fst)

/-- Host, path, hostname and port from the URI. -/
def parseUri (stack : Stack) (uri : Bytes) : Parsed × List Action :=
  if (strstr uri (str "://")).isSome then
    let (host, path) := scanHostPath uri
    let (text, acts) := stack.use .host host
    match strstr text (str ":") with
    | some temp_port =>
      ({ host := host, path := path, uri := some uri, port := some (temp_port.drop 1),
         hostname := (scanUntil 58 text).map Prod.fst, request := none }, acts)
    | none =>
      ({ host := host, path := path, uri := some uri, port := some (str "80"),
         hostname := some text, request := none }, acts)
  else ({ Parsed.none with uri := some uri }, [])

/-- What a header line contributes to the request; `none`: the loop continues. -/
def rewriteHeader (buf : Bytes) : Option Bytes :=
  if (strstr buf (str "User-Agent")).isSome then some user_agent_header
  else if (strstr buf (str "Proxy-Connection")).isSome then some proxy_connection_header
  else if (strstr buf (str "Connection")).isSome then some connection_header
  else if (strstr buf (str "Host")).isSome || (strstr buf (str "GET")).isSome then none
  else some buf

def headerLoop : ℕ → Rio → Bytes → Except Stop Bytes
  | 0, _, _ => .error .fuel
  | n + 1, r, req =>
    match rio_readlineb r MAXLINE with
    | (.line bytes, r) =>
      let buf := cstr bytes
      if buf = str "\r\n" then .ok req
      else
        match rewriteHeader buf with
        | none => headerLoop n r req
        | some out => do
          let req ← strcat req out
          headerLoop n r req
    | _ => .ok req

/-- The request for the server, from the method, path and host and the header lines to come. -/
def buildRequest (fuel : ℕ) (r : Rio) (method path host : Bytes) : Except Stop Bytes := do
  let tmp ← strcat [] method
  let tmp ← strcat tmp (str " ")
  let tmp ← strcat tmp path
  let tmp ← strcat tmp (str " ")
  let tmp ← strcat tmp version_head
  let req ← strcat [] tmp
  let tmp ← strcat [] (str "Host: ")
  let tmp ← strcat tmp host
  let tmp ← strcat tmp (str "\r\n")
  let req ← strcat req tmp
  let req ← headerLoop fuel r req
  strcat req (str "\r\n")

/-- The line buffer after the first read: the line, or what the stack held behind the bytes that
    arrived. -/
def lineBuf (stack : Stack) : Line → Bytes
  | .line bytes => cstr bytes
  | .eof => stack.line 0
  | .error bytes => cstr (bytes ++ stack.line bytes.length)

/-- `read_request` on a connection that delivers `fd`. -/
def read_request (fuel : ℕ) (stack : Stack) (fd : List ReadEv) :
    Except Stop (Parsed × List Action) :=
  let (line, r) := rio_readlineb (rio_readinitb fd) MAXLINE
  match scanWords 3 (lineBuf stack line) with
  | [method, uri, _] => do
    let (parsed, acts) := parseUri stack uri
    let acts := acts ++ if method = str "POST" then notImplemented else []
    if method = str "GET" then do
      let (path, used) := stack.use .path parsed.path
      let (host, used') := stack.use .host parsed.host
      let req ← buildRequest fuel r method path host
      return ({ parsed with request := some req }, acts ++ used ++ used')
    else return (parsed, acts)
  | words => return ({ Parsed.none with uri := words[1]? }, badRequest)

/-- A host text is not empty, and its URI has the `://` that `read_request` looks for. -/
theorem scanHostPath_host {uri host : Bytes} (h : (scanHostPath uri).1 = some host) :
    host ≠ [] ∧ str "://" <:+: uri := by
  rw [scanHostPath, scanLit] at h
  split at h
  · cases h
  · rename_i rest hlit
    split at hlit
    · rename_i hpre
      have hin : str "://" <:+: uri :=
        List.IsInfix.trans ⟨str "http", [], rfl⟩ (List.isPrefixOf_iff_prefix.mp hpre).isInfix
      refine ⟨?_, hin⟩
      rintro rfl
      rw [scanUntil] at h
      split at h
      · cases h
      · rename_i hword
        split at hword
        · cases hword
        · simp_all
    · cases hlit

end Labs.Http
