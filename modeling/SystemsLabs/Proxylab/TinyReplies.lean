import SystemsLabs.Csapp.SioPrintf
import SystemsLabs.Proxylab.RioCalls
import SystemsLabs.Proxylab.Tiny
import SystemsLabs.Schemes.Message

/-! @lab proxylab | file:tiny/tiny.c | structure:what is answered |
    main results:request answered, complete replies

    A `Reply` is what a URI is answered with, apart from how the client takes it. The client gets the
    text of the reply, or what comes before a write that fails. An error page is a complete message
    always, a file as long as its size is an `int` and it can be opened and mapped. -/

namespace Labs.Tiny
open Schemes
open Labs.Http (Bytes MAXLINE MAXBUF Rio ReadEv rio_readinitb rio_readlineb Shows shows_self
  rio_readlineb_shows rio_readlineb_line rio_readlineb_split incoming textLine)
open Labs.Http.Relay (Client WriteEv rio_writen)
open Labs.Sio (Sent rio_writen_sent)

variable {env : Env} {client client' : Client} {fd : List ReadEv} {uri : Bytes}

/-- The error pages. -/
inductive Page where
  | malformed
  | method
  | headers
  | uri
  | missing
  | unreadable
  | unrunnable
  deriving DecidableEq

def Page.errnum : Page → Bytes
  | .malformed | .headers | .uri => str "400"
  | .method => str "501"
  | .missing => str "404"
  | .unreadable | .unrunnable => str "403"

def Page.shortmsg : Page → Bytes
  | .malformed | .headers | .uri => str "Bad Request"
  | .method => str "Not Implemented"
  | .missing => str "Not found"
  | .unreadable | .unrunnable => str "Forbidden"

def Page.longmsg : Page → Bytes
  | .malformed => str "Tiny received a malformed request"
  | .method => str "Tiny does not implement this method"
  | .headers => str "Tiny could not parse request headers"
  | .uri => str "Tiny could not parse the request URI"
  | .missing => str "Tiny couldn't find this file"
  | .unreadable => str "Tiny couldn't read the file"
  | .unrunnable => str "Tiny couldn't run the CGI program"

def Page.body (p : Page) : Bytes := errorBody p.errnum p.shortmsg p.longmsg

def Page.text (p : Page) : Bytes := errorHeader p.errnum p.shortmsg p.body.length ++ p.body

/-- What a URI is answered with. -/
inductive Reply where
  | page (p : Page)
  | file (filename : Bytes) (content : Bytes)
  | program (filename cgiargs : Bytes)

def reply (env : Env) (uri : Bytes) : Reply :=
  match parse_uri uri with
  | .error => .page .uri
  | .static filename =>
    match env.stat filename with
    | none => .page .missing
    | some file =>
      if file.regular && file.readable then .file filename file.content else .page .unreadable
  | .dynamic filename cgiargs =>
    match env.stat filename with
    | none => .page .missing
    | some file =>
      if file.regular && file.executable then .program filename cgiargs else .page .unrunnable

/-- The size of a file as an `int`. -/
def intSize (content : Bytes) : ℤ := (content.length : ℤ).bmod (2 ^ 32)

/-- What is sent behind the headers of a file. -/
def fileBody (env : Env) (filename content : Bytes) : Bytes :=
  if env.opens filename && env.maps then content.take (intSize content).toNat else []

def Reply.text (env : Env) : Reply → Bytes
  | .page p => p.text
  | .file filename content =>
    staticHeader (intSize content) (get_filetype filename) ++ fileBody env filename content
  | .program filename cgiargs =>
    dynamicHeader ++ if env.forks then (env.run filename cgiargs).getD env.unflushed else []

/-! ### Each reply is sent -/

theorem numeral_length {v k : ℕ} (hk : 0 < k) (hv : v < 10 ^ k) : (numeral 10 v).length ≤ k := by
  rw [numeral, List.length_reverse, List.length_map]
  exact digitsOf_length (by decide) hk hv

theorem intNumeral_length {n : ℤ} (hn : n.natAbs < 10 ^ 10) : (intNumeral 10 n).length ≤ 11 := by
  rw [intNumeral, List.length_append]
  have hdigits := @numeral_length n.natAbs 10 (by decide) hn
  have hsign : (if n < 0 then [45] else ([] : Bytes)).length ≤ 1 := by split <;> simp
  omega

theorem Page.fits (p : Page) : p.body.length < MAXBUF ∧
    (errorHeader p.errnum p.shortmsg p.body.length).length < MAXLINE := by
  have hbody : p.body.length < 10 ^ 3 := by cases p <;> decide +kernel
  have hnum := @numeral_length p.body.length 3 (by decide) hbody
  have hrest : (errorHeader p.errnum p.shortmsg p.body.length).length =
      (str "HTTP/1.0 " ++ p.errnum ++ str " " ++ p.shortmsg ++ str "\r\n" ++
        str "Content-Type: text/html\r\n" ++ str "Content-Length: ").length +
        (numeral 10 p.body.length).length + (str "\r\n\r\n").length := by
    rw [errorHeader, List.length_append, List.length_append]
  have hconst : (str "HTTP/1.0 " ++ p.errnum ++ str " " ++ p.shortmsg ++ str "\r\n" ++
      str "Content-Type: text/html\r\n" ++ str "Content-Length: ").length +
      (str "\r\n\r\n").length < 200 := by cases p <;> decide +kernel
  rw [MAXBUF, MAXLINE]
  omega

/-- A text in two writes, of which the second is left out if the first fails. -/
theorem sent_twice (client : Client) (a b : Bytes) :
    Sent client (a ++ b) ((rio_writen client a).1 && (rio_writen (rio_writen client a).2 b).1)
      (if ¬ (rio_writen client a).1 then (rio_writen client a).2
        else (rio_writen (rio_writen client a).2 b).2) := by
  have hfirst := rio_writen_sent client a
  cases h : (rio_writen client a).1 with
  | true =>
    rw [h] at hfirst
    simpa using hfirst.append (rio_writen_sent _ b)
  | false =>
    rw [h] at hfirst
    simpa using hfirst.stop

theorem Page.sent (p : Page) (client : Client) :
    ∃ res, Sent client p.text res (clienterror client p.errnum p.shortmsg p.longmsg) := by
  obtain ⟨hbody, hheader⟩ := p.fits
  rw [Page.body] at hbody hheader
  rw [clienterror]
  simp only
  rw [if_neg (Nat.not_le.mpr hbody), if_neg (Nat.not_le.mpr hheader)]
  exact ⟨_, sent_twice client _ p.body⟩

theorem intSize_bound (content : Bytes) : (intSize content).natAbs ≤ 2 ^ 31 ∧
    (intSize content).toNat ≤ content.length := by
  have hlt := @Int.bmod_lt content.length 4294967296 (by omega)
  have hle := @Int.le_bmod content.length 4294967296 (by omega)
  have hsize : intSize content = (content.length : ℤ).bmod 4294967296 := rfl
  rw [hsize]
  refine ⟨by omega, ?_⟩
  rw [Int.bmod_def]
  split <;> omega

theorem staticHeader_length (content filename : Bytes) :
    (staticHeader (intSize content) (get_filetype filename)).length < MAXBUF := by
  have hnum := @intNumeral_length (intSize content) (by
    have := (intSize_bound content).1
    omega)
  have htype : (get_filetype filename).length ≤ 10 := by
    rw [get_filetype]
    split
    · decide
    · split
      · decide
      · split
        · decide
        · split <;> decide
  have hconst : (str "HTTP/1.0 200 OK\r\n" ++ str "Server: Tiny Web Server\r\n" ++
      str "Connection: close\r\n" ++ str "Content-Length: ").length + (str "\r\n").length +
      (str "Content-Type: ").length + (str "\r\n\r\n").length < 200 := by decide +kernel
  simp only [staticHeader, List.length_append] at hconst ⊢
  rw [MAXBUF]
  omega

theorem serve_static_sent (env : Env) (client : Client) (filename content : Bytes) :
    ∃ res, Sent client ((Reply.file filename content).text env) res
      (serve_static env client filename (intSize content) content) := by
  have hroom := staticHeader_length content filename
  rw [serve_static]
  simp only [Reply.text, fileBody]
  generalize staticHeader (intSize content) (get_filetype filename) = buf at *
  have htwice := sent_twice client buf (content.take (intSize content).toNat)
  have hfirst := rio_writen_sent client buf
  rw [if_neg (Nat.not_le.mpr hroom)]
  cases hres : (rio_writen client buf).1 with
  | false =>
    rw [hres] at hfirst
    exact ⟨false, by simpa using hfirst.stop⟩
  | true =>
    rw [hres] at hfirst htwice
    rw [if_neg (not_not.mpr rfl)] at htwice ⊢
    by_cases hopen : env.opens filename = true
    · rw [if_neg (not_not.mpr hopen), hopen, Bool.true_and]
      by_cases hmaps : env.maps = true
      · rw [if_pos hmaps]
        by_cases hneg : intSize content ≤ 0
        · rw [if_pos (Or.inl hneg), Int.toNat_of_nonpos hneg, List.take_zero, List.append_nil]
          exact ⟨true, hfirst⟩
        · rw [if_neg (not_or.mpr ⟨hneg, not_not.mpr hmaps⟩)]
          exact ⟨_, htwice⟩
      · rw [if_neg hmaps, if_pos (Or.inr hmaps), List.append_nil]
        exact ⟨true, hfirst⟩
    · have hclosed : env.opens filename = false := by simpa using hopen
      rw [if_pos hopen, hclosed, Bool.false_and, if_neg Bool.false_ne_true, List.append_nil]
      exact ⟨true, hfirst⟩

theorem serve_dynamic_sent (env : Env) (client : Client) (filename cgiargs : Bytes) :
    ∃ res, Sent client ((Reply.program filename cgiargs).text env) res
      (serve_dynamic env client filename cgiargs) := by
  have hfirst := rio_writen_sent client dynamicHeader
  rw [serve_dynamic]
  simp only [Reply.text]
  cases hres : (rio_writen client dynamicHeader).1 with
  | false =>
    rw [hres] at hfirst
    exact ⟨false, by simpa using hfirst.stop⟩
  | true =>
    rw [hres] at hfirst
    by_cases hfork : env.forks = true
    · refine ⟨true, hfirst.append ?_⟩
      rw [if_pos hfork, if_neg (by simp), if_neg (by simp [hfork])]
      cases env.run filename cgiargs with
      | some printed => exact .whole [] _ rfl rfl List.not_mem_nil
      | none => exact .whole [] _ rfl rfl List.not_mem_nil
    · exact ⟨true, by simpa [hfork] using hfirst⟩

/-- A URI is answered with its reply. -/
theorem serveUri_sent (env : Env) (client : Client) (uri : Bytes) :
    ∃ res, Sent client ((reply env uri).text env) res (serveUri env client uri) := by
  rw [serveUri, reply]
  cases parse_uri uri with
  | error => exact Page.sent .uri client
  | static filename =>
    simp only
    cases env.stat filename with
    | none => exact Page.sent .missing client
    | some file =>
      simp only
      by_cases hok : file.regular = true ∧ file.readable = true
      · have hboth : (file.regular && file.readable) = true := by simp [hok]
        have hnone : ¬ (¬ file.regular = true ∨ ¬ file.readable = true) := by simp [hok]
        rw [if_pos hboth, if_neg hnone]
        exact serve_static_sent env client filename file.content
      · have hboth : ¬ (file.regular && file.readable) = true := by simpa using hok
        rw [if_neg hboth, if_pos (not_and_or.mp hok)]
        exact Page.sent .unreadable client
  | dynamic filename cgiargs =>
    simp only
    cases env.stat filename with
    | none => exact Page.sent .missing client
    | some file =>
      simp only
      by_cases hok : file.regular = true ∧ file.executable = true
      · have hboth : (file.regular && file.executable) = true := by simp [hok]
        have hnone : ¬ (¬ file.regular = true ∨ ¬ file.executable = true) := by simp [hok]
        rw [if_pos hboth, if_neg hnone]
        exact serve_dynamic_sent env client filename cgiargs
      · have hboth : ¬ (file.regular && file.executable) = true := by simpa using hok
        rw [if_neg hboth, if_pos (not_and_or.mp hok)]
        exact Page.sent .unrunnable client

/-! ### Requests -/

/-- A header line that is accepted. -/
def Accepted (l : Bytes) : Prop :=
  10 ∉ l ∧ l.length + 1 < MAXLINE ∧ cstr (l ++ [10]) ≠ str "\r\n" ∧
    (scanHeader (cstr (l ++ [10]))).isSome

/-- The headers of a request, up to the blank line. -/
theorem read_requesthdrs_accepts : ∀ {ls : List Bytes} {k : ℕ} {r : Rio} {rest : Bytes},
    r.bytes = (ls.map (· ++ [10])).flatten ++ (str "\r\n" ++ rest) → (∀ l ∈ ls, Accepted l) →
    ls.length < k → read_requesthdrs k client r = .ok (false, client)
  | _, 0, _, _, _, _, hk => absurd hk (Nat.not_lt_zero _)
  | [], k + 1, r, rest, hr, _, _ => by
      have hblank : r.bytes = [13] ++ 10 :: rest := hr
      obtain ⟨r', hread, -⟩ := rio_readlineb_line hblank (by decide) (by decide : 2 < MAXLINE)
      rw [read_requesthdrs, hread]
      exact if_pos rfl
  | l :: ls, k + 1, r, rest, hr, hls, hk => by
      obtain ⟨⟨hnl, hlen, hblank, hscan⟩, hls⟩ := List.forall_mem_cons.mp hls
      have hline : r.bytes = l ++ 10 :: ((ls.map (· ++ [10])).flatten ++ (str "\r\n" ++ rest)) := by
        rw [hr]
        simp
      obtain ⟨r', hread, hr'⟩ := rio_readlineb_line hline hnl hlen
      rw [read_requesthdrs, hread]
      simp only
      rw [if_neg hblank, if_neg (by simp [Option.isSome_iff_ne_none.mp hscan])]
      exact read_requesthdrs_accepts hr' hls (Nat.lt_of_succ_lt_succ hk)

/-- However it arrives, a GET request with accepted header lines is answered with the reply to its
    URI, in full or up to a write that fails. -/
theorem request_answered {line rest : Bytes} {ls : List Bytes} {v : UInt8}
    (hfd : incoming fd = line ++ 10 :: ((ls.map (· ++ [10])).flatten ++ (str "\r\n" ++ rest)))
    (hnl : 10 ∉ line) (hlen : line.length + 1 < MAXLINE)
    (hscan : scanRequest (cstr (line ++ [10])) = some (str "GET", uri, v)) (hv : v = 48 ∨ v = 49)
    (hls : ∀ l ∈ ls, Accepted l) (env : Env) (client : Client) :
    ∃ res client', Sent client ((reply env uri).text env) res client' ∧
      Converges (fun fuel => serve fuel env client fd) client' := by
  obtain ⟨res, hsent⟩ := serveUri_sent env client uri
  have hfirst : (rio_readinitb fd).bytes = line ++ 10 :: ((ls.map (· ++ [10])).flatten ++
      (str "\r\n" ++ rest)) := hfd
  obtain ⟨r, hread, hr⟩ := rio_readlineb_line hfirst hnl hlen
  have hversion : ¬ (v ≠ 48 ∧ v ≠ 49) := by
    rcases hv with rfl | rfl
    · simp
    · simp
  refine ⟨res, _, hsent, ls.length + 1, fun fuel hfuel => ?_⟩
  have hheaders := @read_requesthdrs_accepts client ls fuel r rest hr hls hfuel
  change serve fuel env client fd = _
  rw [serve, hread]
  simp only [hscan]
  rw [if_neg hversion, if_neg (not_not.mpr rfl), hheaders]
  rfl

/-- A server without files. -/
def noFiles : Env := ⟨fun _ => none, fun _ => false, false, false, fun _ _ => none, []⟩

theorem request_answered_missing : ∃ res client',
    Sent ⟨[], [.sent 3, .error]⟩ ((reply noFiles (str "/a")).text noFiles) res client' ∧
      Converges (fun fuel => serve fuel noFiles ⟨[], [.sent 3, .error]⟩
        [.data 71 (str "ET /a HT"), .eintr, .data 84 (str "P/1.0\r\nHost: h\r\n\r\n")]) client' := by
  have hhost : Accepted (str "Host: h\r") := ⟨by decide, by decide, by decide, by decide⟩
  exact @request_answered _ _ (str "GET /a HTTP/1.0\r") [] [str "Host: h\r"] 48 (by decide) (by decide)
    (by decide) (by decide) (Or.inl rfl) (List.forall_mem_singleton.mpr hhost) noFiles
    ⟨[], [.sent 3, .error]⟩

def length_name : Bytes := str "Content-Length: "

/-- The length that a header line declares. -/
def contentLength (l : Bytes) : Option ℤ :=
  if length_name.isPrefixOf l then some (intValue 10 (l.drop length_name.length)) else none

theorem contentLength_numeral (n : ℤ) : contentLength (length_name ++ intNumeral 10 n) = some n := by
  rw [contentLength, if_pos (List.isPrefixOf_iff_prefix.mpr (List.prefix_append _ _)),
    List.drop_left, intValue_intNumeral (by decide) (by decide)]

theorem headLine_append {a b : Bytes} (ha : HeadLine a) (hb : 13 ∉ b) : HeadLine (a ++ b) :=
  ⟨fun h => ha.1 (List.append_eq_nil_iff.mp h).1, fun h => (List.mem_append.mp h).elim ha.2 hb⟩

theorem headLine_length (n : ℤ) : HeadLine (length_name ++ intNumeral 10 n) := by
  refine headLine_append (by decide) ?_
  rw [intNumeral, List.mem_append, not_or]
  refine ⟨?_, numeral_not_mem (by decide) (by decide) (by decide)⟩
  split
  · decide
  · exact List.not_mem_nil

def Page.lines (p : Page) : List Bytes :=
  [str "HTTP/1.0 " ++ p.errnum ++ str " " ++ p.shortmsg, str "Content-Type: text/html",
    length_name ++ intNumeral 10 p.body.length]

def fileLines (size : ℤ) (filetype : Bytes) : List Bytes :=
  [str "HTTP/1.0 200 OK", str "Server: Tiny Web Server", str "Connection: close",
    length_name ++ intNumeral 10 size, str "Content-Type: " ++ filetype]

theorem staticHeader_eq (size : ℤ) (filetype : Bytes) :
    staticHeader size filetype = headText (fileLines size filetype) := by
  have hstatus : str "HTTP/1.0 200 OK\r\n" = str "HTTP/1.0 200 OK" ++ crlf := rfl
  have hserver : str "Server: Tiny Web Server\r\n" = str "Server: Tiny Web Server" ++ crlf := rfl
  have hclose : str "Connection: close\r\n" = str "Connection: close" ++ crlf := rfl
  have hcrlf : str "\r\n" = crlf := rfl
  have hend : str "\r\n\r\n" = crlf ++ crlf := rfl
  rw [staticHeader, hstatus, hserver, hclose, hcrlf, hend]
  simp [headText, fileLines, length_name]

theorem fileLines_ok (size : ℤ) (filename : Bytes) :
    ∀ l ∈ fileLines size (get_filetype filename), HeadLine l := by
  have htype : (13 : UInt8) ∉ get_filetype filename := by
    rw [get_filetype]
    split
    · decide
    · split
      · decide
      · split
        · decide
        · split <;> decide
  rw [fileLines]
  exact List.forall_mem_cons.mpr ⟨by decide, List.forall_mem_cons.mpr ⟨by decide,
    List.forall_mem_cons.mpr ⟨by decide, List.forall_mem_cons.mpr ⟨headLine_length _,
      List.forall_mem_singleton.mpr (headLine_append (by decide) htype)⟩⟩⟩⟩

theorem fileLines_length (size : ℤ) (filetype : Bytes) :
    (fileLines size filetype).filterMap contentLength = [size] := by
  have hstatus : contentLength (str "HTTP/1.0 200 OK") = none := rfl
  have hserver : contentLength (str "Server: Tiny Web Server") = none := rfl
  have hclose : contentLength (str "Connection: close") = none := rfl
  have htype : contentLength (str "Content-Type: " ++ filetype) = none := rfl
  simp [fileLines, hstatus, hserver, hclose, htype, contentLength_numeral]

/-- The reply with a file is complete iff there is nothing to send, or the size is positive as an
    `int` and the file can be opened and mapped. -/
theorem file_complete_iff (env : Env) (filename content : Bytes) :
    Complete contentLength ((Reply.file filename content).text env) ↔
      intSize content = 0 ∨ 0 < intSize content ∧ env.opens filename = true ∧ env.maps = true := by
  have hbound := (intSize_bound content).2
  rw [Reply.text, staticHeader_eq, complete_iff (fileLines_ok _ _), fileLines_length,
    List.cons_eq_cons, fileBody]
  by_cases hboth : env.opens filename = true ∧ env.maps = true
  · rw [if_pos (by simp [hboth]), List.length_take, Nat.min_eq_left hbound]
    simp only [hboth, and_true]
    omega
  · rw [if_neg (by simpa using hboth)]
    simp only [hboth, and_false, or_false, List.length_nil]
    simp

end Labs.Tiny
