import SystemsLabs.Proxylab.Relay
import SystemsLabs.Schemes.Numeral

/-! @lab proxylab | file:tiny/tiny.c | structure:web server, one request at a time

    The web server that the proxy is tried with. `serve` reads a request line and the header lines,
    takes the URI apart and answers with a file, with what a program prints, or with an error page.
    The file system and the programs are parameters (`Env`); a file does not change while it is
    served. Of what the server prints for itself only the part counts that its buffer still holds
    when it forks: a child whose program cannot be run writes that to the client as it exits. -/

namespace Labs.Tiny
open Schemes
open Labs.Http (Bytes MAXLINE MAXBUF Rio ReadEv rio_readinitb rio_readlineb)
open Labs.Http.Relay (Client rio_writen)

/-- What `stat` and `mmap` show of a file. -/
structure File where
  regular : Bool
  readable : Bool
  executable : Bool
  content : Bytes

structure Env where
  stat : Bytes → Option File
  opens : Bytes → Bool
  maps : Bool
  forks : Bool
  /-- What the program in a file sends, for a query string; `none` if `execve` refuses it. -/
  run : Bytes → Bytes → Option Bytes
  /-- What the buffer of the server's standard output holds at the `fork`. -/
  unflushed : Bytes

/-- `parse_result`, with the texts that go with it. -/
inductive ParseResult where
  | error
  | static (filename : Bytes)
  | dynamic (filename cgiargs : Bytes)
  deriving DecidableEq

def cgi_bin : Bytes := str "/cgi-bin/"

/-- The guard against `..` is on the static side only. -/
def parse_uri (uri : Bytes) : ParseResult :=
  if uri.head? ≠ some 47 then .error
  else if cgi_bin.isPrefixOf uri then
    let cgiargs := ((strstr uri [63]).getD []).drop 1
    if cgiargs.length ≥ MAXLINE then .error
    else
      let filename := 46 :: uri.takeWhile (· ≠ 63)
      if filename.length ≥ MAXLINE then .error else .dynamic filename cgiargs
  else if (strstr uri (str "/../")).isSome then .error
  else
    let is_dir := uri.getLast? = some 47
    let filename := 46 :: uri ++ if is_dir then str "home.html" else []
    if filename.length ≥ MAXLINE then .error else .static filename

def get_filetype (filename : Bytes) : Bytes :=
  if (strstr filename (str ".html")).isSome then str "text/html"
  else if (strstr filename (str ".gif")).isSome then str "image/gif"
  else if (strstr filename (str ".png")).isSome then str "image/png"
  else if (strstr filename (str ".jpg")).isSome then str "image/jpeg"
  else str "text/plain"

/-- The headers of a file, whose size is an `int`. -/
def staticHeader (filesize : ℤ) (filetype : Bytes) : Bytes :=
  str "HTTP/1.0 200 OK\r\n" ++ str "Server: Tiny Web Server\r\n" ++ str "Connection: close\r\n" ++
    str "Content-Length: " ++ intNumeral 10 filesize ++ str "\r\n" ++
    str "Content-Type: " ++ filetype ++ str "\r\n\r\n"

/-- `mmap` takes no length 0, and a negative one is too large for it. -/
def serve_static (env : Env) (client : Client) (filename : Bytes) (filesize : ℤ)
    (content : Bytes) : Client :=
  let buf := staticHeader filesize (get_filetype filename)
  if buf.length ≥ MAXBUF then client
  else
    let (sent, client) := rio_writen client buf
    if ¬ sent then client
    else if ¬ env.opens filename then client
    else if filesize ≤ 0 ∨ ¬ env.maps then client
    else (rio_writen client (content.take filesize.toNat)).2

def dynamicHeader : Bytes := str "HTTP/1.0 200 OK\r\n" ++ str "Server: Tiny Web Server\r\n"

/-- The program writes to the client itself, and so does `exit` in the child when there is no program:
    standard output is the client by then. -/
def serve_dynamic (env : Env) (client : Client) (filename cgiargs : Bytes) : Client :=
  let (sent, client) := rio_writen client dynamicHeader
  if ¬ sent then client
  else if ¬ env.forks then client
  else
    match env.run filename cgiargs with
    | some printed => { client with received := client.received ++ printed }
    | none => { client with received := client.received ++ env.unflushed }

def errorBody (errnum shortmsg longmsg : Bytes) : Bytes :=
  str "<!DOCTYPE html>\r\n" ++ str "<html>\r\n" ++ str "<head><title>Tiny Error</title></head>\r\n" ++
    str "<body bgcolor=\"ffffff\">\r\n" ++ str "<h1>" ++ errnum ++ str ": " ++ shortmsg ++
    str "</h1>\r\n" ++ str "<p>" ++ longmsg ++ str "</p>\r\n" ++
    str "<hr /><em>The Tiny Web server</em>\r\n" ++ str "</body></html>\r\n"

def errorHeader (errnum shortmsg : Bytes) (bodylen : ℕ) : Bytes :=
  str "HTTP/1.0 " ++ errnum ++ str " " ++ shortmsg ++ str "\r\n" ++ str "Content-Type: text/html\r\n" ++
    str "Content-Length: " ++ numeral 10 bodylen ++ str "\r\n\r\n"

def clienterror (client : Client) (errnum shortmsg longmsg : Bytes) : Client :=
  let body := errorBody errnum shortmsg longmsg
  if body.length ≥ MAXBUF then client
  else
    let buf := errorHeader errnum shortmsg body.length
    if buf.length ≥ MAXLINE then client
    else
      let (sent, client) := rio_writen client buf
      if ¬ sent then client else (rio_writen client body).2

/-- `sscanf(buf, "%[^:]: %[^\r\n]", name, value)`, if it assigns both. -/
def scanHeader (buf : Bytes) : Option (Bytes × Bytes) :=
  match scanUntil 58 buf with
  | none => none
  | some (name, rest) =>
    match scanLit (str ":") rest with
    | none => none
    | some rest =>
      match (rest.dropWhile isspace).takeWhile fun c => c ≠ 13 ∧ c ≠ 10 with
      | [] => none
      | c :: value => some (name, c :: value)

/-- `true`: the request ends here, for an error or for the end of what is read. -/
def read_requesthdrs : ℕ → Client → Rio → Except Stop (Bool × Client)
  | 0, _, _ => .error .fuel
  | k + 1, client, rp =>
    match rio_readlineb rp MAXLINE with
    | (.line bytes, rp) =>
      if cstr bytes = str "\r\n" then .ok (false, client)
      else if (scanHeader (cstr bytes)).isNone then
        .ok (true, clienterror client (str "400") (str "Bad Request")
          (str "Tiny could not parse request headers"))
      else read_requesthdrs k client rp
    | _ => .ok (true, client)

/-- `sscanf(buf, "%s %s HTTP/1.%c", method, uri, &version)`, if it assigns all three. -/
def scanRequest (buf : Bytes) : Option (Bytes × Bytes × UInt8) :=
  match scanWord buf with
  | none => none
  | some (method, rest) =>
    match scanWord rest with
    | none => none
    | some (uri, rest) =>
      match scanLit (str "HTTP/1.") (rest.dropWhile isspace) with
      | some (version :: _) => some (method, uri, version)
      | _ => none

/-- `serve`, once the request has been read. -/
def serveUri (env : Env) (client : Client) (uri : Bytes) : Client :=
  match parse_uri uri with
  | .error =>
    clienterror client (str "400") (str "Bad Request") (str "Tiny could not parse the request URI")
  | .static filename =>
    match env.stat filename with
    | none => clienterror client (str "404") (str "Not found") (str "Tiny couldn't find this file")
    | some file =>
      if ¬ file.regular ∨ ¬ file.readable then
        clienterror client (str "403") (str "Forbidden") (str "Tiny couldn't read the file")
      else serve_static env client filename ((file.content.length : ℤ).bmod (2 ^ 32)) file.content
  | .dynamic filename cgiargs =>
    match env.stat filename with
    | none => clienterror client (str "404") (str "Not found") (str "Tiny couldn't find this file")
    | some file =>
      if ¬ file.regular ∨ ¬ file.executable then
        clienterror client (str "403") (str "Forbidden") (str "Tiny couldn't run the CGI program")
      else serve_dynamic env client filename cgiargs

def serve (fuel : ℕ) (env : Env) (client : Client) (fd : List ReadEv) : Except Stop Client :=
  match rio_readlineb (rio_readinitb fd) MAXLINE with
  | (.line bytes, rio) =>
    match scanRequest (cstr bytes) with
    | some (method, uri, version) =>
      if version ≠ 48 ∧ version ≠ 49 then
        .ok (clienterror client (str "400") (str "Bad Request")
          (str "Tiny received a malformed request"))
      else if method ≠ str "GET" then
        .ok (clienterror client (str "501") (str "Not Implemented")
          (str "Tiny does not implement this method"))
      else do
        let (bad, client) ← read_requesthdrs fuel client rio
        .ok (if bad then client else serveUri env client uri)
    | none =>
      .ok (clienterror client (str "400") (str "Bad Request")
        (str "Tiny received a malformed request"))
  | _ => .ok client

end Labs.Tiny
