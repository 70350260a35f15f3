import SystemsLabs.Proxylab.TinyReplies
import SystemsLabs.Proxylab.UriSplit

/-! @lab proxylab | file:proxy.c, tiny/tiny.c | structure:client, proxy and server |
    main result:the reply through the proxy

    The whole way of a request: the client asks the proxy for a URI, the proxy builds its own request
    (`request`), the server answers that, and the proxy passes the answer on. The header lines that
    the proxy adds and keeps are accepted by the server, so that the client gets the reply to the
    path of its URI. -/

namespace Labs.Http

/-- A line whose value the server can read. -/
def Header.Valued (h : Header) : Prop := 0 ∉ h.value ∧ ∃ c ∈ h.value, Schemes.isspace c = false

end Labs.Http

namespace Labs.Tiny
open Schemes
open Labs.Http

variable {u : AbsoluteUri} {hs : List Header} {fd : List ReadEv}

/-- A client asks for a URI with a path, with header lines that fit into the line buffer. -/
structure Asks (u : AbsoluteUri) (hs : List Header) (fd : List ReadEv) : Prop where
  path : u.rest.isSome
  line : ∃ version eol rest, (version ≠ [] ∧ ∀ c ∈ version, c ≠ 0 ∧ isspace c = false) ∧
    (eol = [] ∨ eol = [13]) ∧ (u.requestLine version ++ eol).length + 1 < MAXLINE ∧
    incoming fd = u.requestLine version ++ eol ++
      10 :: ((hs.map Header.line).flatten ++ (str "\r\n" ++ rest))
  lengths : ∀ h ∈ hs, h.line.length < MAXLINE
  values : ∀ h ∈ hs, h.Valued

/-- What the proxy asks the server. -/
def request (u : AbsoluteUri) (hs : List Header) : Bytes :=
  requestWith u.path u.host (hs.map Header.byCode).flatten

/-! ### The proxy's request -/

theorem Asks.scanned {version eol : Bytes} (hv : version ≠ [] ∧ ∀ c ∈ version, c ≠ 0 ∧ isspace c = false)
    (heol : eol = [] ∨ eol = [13]) : 10 ∉ u.requestLine version ++ eol ∧
    scanWords 3 (cstr (u.requestLine version ++ eol ++ [10])) = [str "GET", u.text, version] := by
  have hget : ∀ c ∈ str "GET", c ≠ 0 ∧ isspace c = false := forall_of_all (by decide)
  have hend : ∀ c ∈ eol ++ [10], c ≠ 0 ∧ isspace c = true := by
    rcases heol with rfl | rfl
    · exact forall_of_all (by decide)
    · exact forall_of_all (by decide)
  have hline : ∀ c ∈ u.requestLine version, c = 32 ∨ isspace c = false := by
    intro c hc
    rw [AbsoluteUri.requestLine, List.mem_append, List.mem_cons, List.mem_append, List.mem_cons] at hc
    rcases hc with hc | hc | hc | hc | hc
    · exact Or.inr (hget c hc).2
    · exact Or.inl hc
    · exact Or.inr (text_clean u c hc).2
    · exact Or.inl hc
    · exact Or.inr (hv.2 c hc).2
  have hzero : 0 ∉ u.requestLine version ++ (eol ++ [10]) := by
    rw [List.mem_append, AbsoluteUri.requestLine, List.mem_append, List.mem_cons, List.mem_append,
      List.mem_cons]
    rintro ((hc | hc | hc | hc | hc) | hc)
    · exact (hget 0 hc).1 rfl
    · cases hc
    · exact (text_clean u 0 hc).1 rfl
    · cases hc
    · exact (hv.2 0 hc).1 rfl
    · exact (hend 0 hc).1 rfl
  refine ⟨?_, ?_⟩
  · rw [List.mem_append, not_or]
    refine ⟨fun hc => ?_, by rcases heol with rfl | rfl <;> decide⟩
    rcases hline 10 hc with h | h <;> cases h
  · have hends : Ends (eol ++ [10]) := fun c hc => (hend c (List.mem_of_mem_head? hc)).2
    rw [List.append_assoc, cstr_of_not_mem hzero, AbsoluteUri.requestLine, List.append_assoc,
      List.cons_append, List.append_assoc, List.cons_append]
    exact scanWords_three ⟨by decide, fun c hc => (hget c hc).2⟩
      ⟨by simp [AbsoluteUri.text, str], fun c hc => (text_clean u c hc).2⟩
      ⟨hv.1, fun c hc => (hv.2 c hc).2⟩ hends

/-- The proxy asks for the path of the URI. -/
theorem Asks.proxied (h : Asks u hs fd) (stack : Stack) (hfits : (request u hs).length < MAXLINE) :
    ∃ parsed, Converges (fun fuel => read_request fuel stack fd) (parsed, []) ∧
      parsed.request = some (request u hs) := by
  obtain ⟨version, eol, rest, hv, heol, hlen, hbytes⟩ := h.line
  obtain ⟨hnl, hwords⟩ := @Asks.scanned u version eol hv heol
  obtain ⟨r, hr⟩ := Option.isSome_iff_exists.mp h.path
  have hscan : scanHostPath u.text = (some u.host, some u.path) := by
    rw [scanHostPath_text, hr, AbsoluteUri.path, hr]
    rfl
  obtain ⟨parsed, hread⟩ := read_request_get stack hbytes hnl hlen hwords hscan h.lengths
  refine ⟨{ parsed with request := some (request u hs) }, ⟨hs.length + 1, fun fuel hfuel => ?_⟩, rfl⟩
  have hcat : strcat [] (requestWith u.path u.host (hs.map Header.byCode).flatten) =
      .ok (request u hs) := by
    exact strcat_ok hfits
  exact (hread fuel hfuel).trans (by rw [hcat]; rfl)

/-! ### Its lines are accepted -/

theorem scanHeader_isSome {name value : Bytes} (hname : name ≠ []) (hcolon : 58 ∉ name)
    (hvalue : ∃ c ∈ value, isspace c = false) :
    (scanHeader (name ++ 58 :: 32 :: (value ++ [13, 10]))).isSome := by
  have hne : value.dropWhile isspace ≠ [] := by
    rw [ne_eq, List.dropWhile_eq_nil_iff]
    intro hall
    obtain ⟨c, hc, hspace⟩ := hvalue
    rw [hall c hc] at hspace
    cases hspace
  obtain ⟨d, t, hd⟩ := List.exists_cons_of_ne_nil hne
  have hspace : isspace d = false := by
    have hhead := List.head_dropWhile_not isspace hne
    simpa [hd] using hhead
  have hkeep : d ≠ 13 ∧ d ≠ 10 := by
    constructor
    · rintro rfl
      cases hspace
    · rintro rfl
      cases hspace
  have huntil : scanUntil 58 (name ++ 58 :: 32 :: (value ++ [13, 10])) =
      some (name, 58 :: 32 :: (value ++ [13, 10])) := scanUntil_eq hname hcolon (by simp)
  have hlit : scanLit (str ":") (58 :: 32 :: (value ++ [13, 10])) = some (32 :: (value ++ [13, 10])) :=
    scanLit_append (str ":") _
  have hskip : (32 :: (value ++ [13, 10])).dropWhile isspace = d :: (t ++ [13, 10]) := by
    rw [List.dropWhile_cons_of_pos (by decide), List.dropWhile_append, if_neg (by simp [hd]), hd]
    rfl
  rw [scanHeader, huntil]
  simp only [hlit, hskip]
  rw [List.takeWhile_cons_of_pos (by simpa using hkeep)]
  rfl

theorem accepted_line {name value : Bytes} (hname : name ≠ [])
    (hclean : 0 ∉ name ∧ 10 ∉ name ∧ 58 ∉ name) (hvalue : 0 ∉ value ∧ 10 ∉ value)
    (hword : ∃ c ∈ value, isspace c = false)
    (hlen : (name ++ 58 :: 32 :: (value ++ [13])).length + 1 < MAXLINE) :
    Accepted (name ++ 58 :: 32 :: (value ++ [13])) := by
  have hend : name ++ 58 :: 32 :: (value ++ [13]) ++ [10] = name ++ 58 :: 32 :: (value ++ [13, 10]) := by
    simp
  have hzero : 0 ∉ name ++ 58 :: 32 :: (value ++ [13, 10]) := by
    simp [hclean.1, hvalue.1]
  rw [Accepted, hend, cstr_of_not_mem hzero]
  refine ⟨by simp [hclean.2.1, hvalue.2], hlen, fun heq => ?_, scanHeader_isSome hname hclean.2.2 hword⟩
  have hcolon : (58 : UInt8) ∈ str "\r\n" := heq ▸ by simp
  exact absurd hcolon (by decide)

theorem Asks.accepted (h : Asks u hs fd) : ∀ x ∈ hs, x.byCode = [] ∨
    ∃ l, x.byCode = l ++ [10] ∧ Accepted l := by
  intro x hx
  rw [Header.byCode]
  cases x.codeKind with
  | agent =>
    exact Or.inr ⟨str "User-Agent" ++ 58 :: 32 :: (str
      "Mozilla/5.0 (X11; Linux x86_64; rv:3.10.0) Gecko/20191101 Firefox/63.0.1" ++ [13]), rfl,
      accepted_line (by decide) (by decide) (by decide) ⟨77, by decide, rfl⟩ (by decide)⟩
  | proxyConnection =>
    exact Or.inr ⟨str "Proxy-Connection" ++ 58 :: 32 :: (str "close" ++ [13]), rfl,
      accepted_line (by decide) (by decide) (by decide) ⟨99, by decide, rfl⟩ (by decide)⟩
  | connection =>
    exact Or.inr ⟨str "Connection" ++ 58 :: 32 :: (str "close" ++ [13]), rfl,
      accepted_line (by decide) (by decide) (by decide) ⟨99, by decide, rfl⟩ (by decide)⟩
  | drop => exact Or.inl rfl
  | keep =>
    obtain ⟨hzero, hword⟩ := h.values x hx
    have hline : x.line = x.name ++ 58 :: 32 :: (x.value ++ [13]) ++ [10] := by
      have hcolon : str ": " = [58, 32] := rfl
      have hcrlf : str "\r\n" = [13, 10] := rfl
      rw [Header.line, hcolon, hcrlf]
      simp
    have hnul : 0 ∉ x.line := by
      rw [hline]
      simp [x.name_ok.1, hzero]
    have hlen := h.lengths x hx
    rw [hline, List.length_append] at hlen
    refine Or.inr ⟨_, ?_, accepted_line x.nonempty x.name_ok ⟨hzero, x.value_ok⟩ hword hlen⟩
    exact (cstr_of_not_mem hnul).trans hline

theorem exists_lines : ∀ {ps : List Bytes}, (∀ p ∈ ps, p = [] ∨ ∃ l, p = l ++ [10] ∧ Accepted l) →
    ∃ ls : List Bytes, (ls.map (· ++ [10])).flatten = ps.flatten ∧ ∀ l ∈ ls, Accepted l
  | [], _ => ⟨[], rfl, by simp⟩
  | p :: ps, h => by
      obtain ⟨hp, hps⟩ := List.forall_mem_cons.mp h
      obtain ⟨ls, hls, hok⟩ := exists_lines hps
      rcases hp with rfl | ⟨l, rfl, hl⟩
      · exact ⟨ls, hls, hok⟩
      · exact ⟨l :: ls, by simp [hls], List.forall_mem_cons.mpr ⟨hl, hok⟩⟩

theorem path_clean (u : AbsoluteUri) : ∀ c ∈ u.path, c ≠ 0 ∧ isspace c = false := by
  intro c hc
  cases hr : u.rest with
  | none =>
    rw [AbsoluteUri.path, hr] at hc
    obtain rfl := List.mem_singleton.mp hc
    exact ⟨by decide, rfl⟩
  | some r =>
    refine tail_clean u c ?_
    rw [AbsoluteUri.path, hr] at hc
    rw [AbsoluteUri.tail, hr]
    exact hc

/-- The server finds the path in the proxy's request line. -/
theorem scanRequest_path (u : AbsoluteUri) :
    0 ∉ str "GET " ++ u.path ++ str " HTTP/1.0\r" ∧ 10 ∉ str "GET " ++ u.path ++ str " HTTP/1.0\r" ∧
      scanRequest (str "GET " ++ u.path ++ str " HTTP/1.0\r" ++ [10]) =
        some (str "GET", u.path, 48) := by
  have hpath : 0 ∉ u.path ∧ 10 ∉ u.path :=
    ⟨fun hc => (path_clean u 0 hc).1 rfl, fun hc => by cases (path_clean u 10 hc).2⟩
  refine ⟨?_, ?_, ?_⟩
  · simp only [List.mem_append, not_or]
    exact ⟨⟨by decide, hpath.1⟩, by decide⟩
  · simp only [List.mem_append, not_or]
    exact ⟨⟨by decide, hpath.2⟩, by decide⟩
  · have hget : str "GET " ++ u.path ++ str " HTTP/1.0\r" ++ [10] =
        str "GET" ++ 32 :: (u.path ++ 32 :: str "HTTP/1.0\r\n") := by
      have hfirst : str "GET " = str "GET" ++ [32] := rfl
      have hlast : str " HTTP/1.0\r" ++ [10] = 32 :: str "HTTP/1.0\r\n" := rfl
      rw [List.append_assoc, hfirst, hlast]
      simp
    have hends : ∀ t : Bytes, Ends (32 :: t) := fun t c hc => by
      obtain rfl := Option.some.inj hc
      rfl
    have hmethod : scanWord (str "GET" ++ 32 :: (u.path ++ 32 :: str "HTTP/1.0\r\n")) =
        some (str "GET", 32 :: (u.path ++ 32 :: str "HTTP/1.0\r\n")) :=
      scanWord_word (by decide) (forall_of_all (by decide)) (hends _)
    have huri : scanWord (32 :: (u.path ++ 32 :: str "HTTP/1.0\r\n")) =
        some (u.path, 32 :: str "HTTP/1.0\r\n") :=
      (scanWord_skip rfl).trans
        (scanWord_word (List.cons_ne_nil _ _) (fun c hc => (path_clean u c hc).2) (hends _))
    have hversion : scanLit (str "HTTP/1.") ((32 :: str "HTTP/1.0\r\n").dropWhile isspace) =
        some (48 :: [13, 10]) := by decide
    rw [hget, scanRequest, hmethod]
    simp only [huri, hversion]

/-- The server answers the proxy's request with the reply to the path. -/
theorem Asks.served (h : Asks u hs fd) (hfits : (request u hs).length < MAXLINE)
    {fd' : List ReadEv} (hfd' : incoming fd' = request u hs) (env : Env) :
    ∃ server, Converges (fun fuel => serve fuel env ⟨[], []⟩ fd') server ∧
      server.received = (reply env u.path).text env := by
  obtain ⟨hzero, hnl, hscan⟩ := scanRequest_path u
  have hpieces : ∀ p ∈ hs.map Header.byCode, p = [] ∨ ∃ l, p = l ++ [10] ∧ Accepted l := by
    intro p hp
    obtain ⟨x, hx, rfl⟩ := List.mem_map.mp hp
    exact h.accepted x hx
  obtain ⟨ls, hls, hok⟩ := exists_lines hpieces
  have hlen := requestWith_length u.path u.host (hs.map Header.byCode).flatten
  rw [← request] at hlen
  have hhost : Accepted (str "Host" ++ 58 :: 32 :: (u.host ++ [13])) := by
    refine accepted_line (by decide) (by decide)
      ⟨fun hc => (host_clean u 0 hc).1 rfl, fun hc => by cases (host_clean u 10 hc).2.2⟩ ?_ ?_
    · obtain ⟨c, t, hc⟩ := List.exists_cons_of_ne_nil (host_nonempty u)
      exact ⟨c, hc ▸ List.mem_cons_self, (host_clean u c (hc ▸ List.mem_cons_self)).2.2⟩
    · have hconst : (str "Host").length = 4 := rfl
      simp only [List.length_append, List.length_cons, List.length_nil, hconst]
      omega
  have htext : incoming fd' = (str "GET " ++ u.path ++ str " HTTP/1.0\r") ++
      10 :: ((((str "Host" ++ 58 :: 32 :: (u.host ++ [13])) :: ls).map (· ++ [10])).flatten ++
        (str "\r\n" ++ [])) := by
    have hversion : str " " ++ version_head = str " HTTP/1.0\r" ++ [10] := by decide
    have hname : str "Host: " = str "Host" ++ [58, 32] := rfl
    have hcrlf : str "\r\n" = [13, 10] := rfl
    rw [hfd', request, requestWith, List.map_cons, List.flatten_cons, hls, List.append_assoc (str "GET " ++ _),
      hversion, hname, hcrlf]
    simp
  obtain ⟨res, server, hsent, hrun⟩ := @request_answered _ _ _ _ _ 48 htext hnl (by
      have hconst : (str "GET ").length = 4 ∧ (str " HTTP/1.0\r").length = 10 := by decide
      simp only [List.length_append, hconst]
      omega) (by rw [cstr_of_not_mem (by simpa using hzero)]; exact hscan) (Or.inl rfl)
    (List.forall_mem_cons.mpr ⟨hhost, hok⟩) env ⟨[], []⟩
  obtain ⟨-, hreceived, -⟩ := hsent.unbroken (by simp)
  exact ⟨server, hrun, by simpa using hreceived⟩

/-! ### There and back -/

open Labs.Http.Relay (Client Relaying send_response_to_client)
open Labs.WebCache (MAX_OBJECT_SIZE)

theorem relayed (answer : List ReadEv) (client : Client) (response : Buffer MAX_OBJECT_SIZE)
    (hread : .error ∉ answer) (hwrite : .error ∉ client.answers) :
    ∃ s, Converges (fun fuel => send_response_to_client fuel answer client response) (.returned s) ∧
      Relaying client.received (incoming answer) [] s := by
  have hinit : Relaying client.received [] (incoming answer) ⟨rio_readinitb answer, client, response,
      BitVec.ofNat 64 MAX_OBJECT_SIZE, 0, []⟩ :=
    ⟨rfl, hread, (List.append_nil _).symm, hwrite, nofun, Or.inl rfl, rfl, fun _ => ⟨rfl, rfl⟩, nofun⟩
  exact hinit.run

/-- The proxy asks a server for the path of the URI, the server replies to it, and the client gets this
    reply; the proxy has it whole for its cache if it is small enough, else nothing. The connections
    may cut the texts as they like. -/
def Delivered (u : AbsoluteUri) (stack : Stack) (fd : List ReadEv) (env : Env) : Prop :=
  ∃ parsed, Converges (fun fuel => read_request fuel stack fd) (parsed, []) ∧
    ∀ fd', some (incoming fd') = parsed.request →
    ∃ server, Converges (fun fuel => serve fuel env ⟨[], []⟩ fd') server ∧
      ∀ (answer : List ReadEv) (client : Client) (response : Buffer MAX_OBJECT_SIZE),
        incoming answer = server.received → .error ∉ answer → .error ∉ client.answers →
        ∃ s, Converges (fun fuel => send_response_to_client fuel answer client response)
            (.returned s) ∧
          s.client.received = client.received ++ (reply env u.path).text env ∧
          (((reply env u.path).text env).length ≤ MAX_OBJECT_SIZE →
            s.response.bytes.take s.size.toNat = (reply env u.path).text env) ∧
          (MAX_OBJECT_SIZE < ((reply env u.path).text env).length → s.size = 0)

/-- As long as the proxy's request fits, the reply is delivered. -/
theorem reply_through_proxy (h : Asks u hs fd) (hfits : (request u hs).length < MAXLINE)
    (stack : Stack) (env : Env) : Delivered u stack fd env := by
  obtain ⟨parsed, hparsed, hreq⟩ := h.proxied stack hfits
  refine ⟨parsed, hparsed, fun fd' hfd' => ?_⟩
  rw [hreq] at hfd'
  obtain ⟨server, hserver, hreply⟩ := h.served hfits (Option.some.inj hfd') env
  refine ⟨server, hserver, fun answer client response hanswer hread hwrite => ?_⟩
  obtain ⟨s, hrun, hrelay⟩ := relayed answer client response hread hwrite
  rw [hanswer, hreply] at hrelay
  refine ⟨s, hrun, hrelay.received, fun hle => ?_, hrelay.dropped⟩
  obtain ⟨hsize, htake⟩ := hrelay.kept hle
  rw [hsize]
  exact htake

theorem asks_page : Asks portUri [acceptHeader]
    (arriving (str "GET http://h:8080/a:b HTTP/1.1\r\nAccept: */*\r\n\r\n")) where
  path := rfl
  line := ⟨str "HTTP/1.1", [13], [], ⟨by decide, forall_of_all (by decide)⟩, Or.inr rfl, by decide,
    by decide⟩
  lengths := by
    intro x hx
    rw [List.mem_singleton.mp hx]
    decide
  values := by
    intro x hx
    rw [List.mem_singleton.mp hx]
    exact ⟨by decide, 42, by decide, rfl⟩

theorem reply_through_proxy_page : Delivered portUri .blank
    (arriving (str "GET http://h:8080/a:b HTTP/1.1\r\nAccept: */*\r\n\r\n")) noFiles :=
  reply_through_proxy asks_page (by decide) .blank noFiles

end Labs.Tiny
