import SystemsLabs.Proxylab.Headers

/-! @lab proxylab | file:proxy.c (read_request) | scheme:text | main result:when headers go by name

    The whole of `read_request` on a GET request: the header lines are read off the connection
    however it cuts them, and the request is the concatenation of what each contributes. It is the
    request that goes by field names iff every line is `Clear`. -/

namespace Labs.Http
open Schemes

/-- The request with the given header text. -/
def requestWith (path host headers : Bytes) : Bytes :=
  str "GET " ++ path ++ str " " ++ version_head ++ (str "Host: " ++ host ++ str "\r\n") ++
    headers ++ str "\r\n"

/-- The request that treats every header line by its name. -/
def requestByName (path host : Bytes) (hs : List Header) : Bytes :=
  requestWith path host (hs.map Header.byName).flatten

/-! ### Concatenation into an array -/

theorem strcat_ok {dst src : Bytes} (h : (dst ++ src).length < MAXLINE) :
    strcat dst src = .ok (dst ++ src) := by
  rw [strcat, if_pos (by rwa [List.length_append] at h)]

theorem strcat_strcat (a b c : Bytes) :
    (strcat a b >>= fun d => strcat d c) = strcat a (b ++ c) := by
  rw [strcat, strcat]
  split
  · rw [ok_bind, strcat, List.length_append, List.length_append, List.append_assoc, Nat.add_assoc]
  · rename_i hlt
    rw [error_bind, if_neg (by rw [List.length_append]; omega)]

theorem strcat_bind (a b c : Bytes) (k : Bytes → Except Stop Bytes) :
    (strcat a b >>= fun d => strcat d c >>= k) = strcat a (b ++ c) >>= k := by
  rw [← strcat_strcat, bind_assoc]

/-- A string built aside and then copied, with more text behind it. -/
theorem strcat_aside_append (a b c : Bytes) (k : Bytes → Except Stop Bytes) :
    (strcat [] b >>= fun d => strcat a (d ++ c) >>= k) = strcat a (b ++ c) >>= k := by
  rcases Nat.lt_or_ge b.length MAXLINE with hb | hb
  · rw [strcat_ok (by simpa using hb), ok_bind, List.nil_append]
  · have hnil : strcat [] b = .error .fault := by
      rw [strcat, if_neg (by rw [List.length_nil]; omega)]
    have happ : strcat a (b ++ c) = .error .fault := by
      rw [strcat, if_neg (by rw [List.length_append]; omega)]
    rw [hnil, happ, error_bind, error_bind]

theorem strcat_aside (a b : Bytes) (k : Bytes → Except Stop Bytes) :
    (strcat [] b >>= fun d => strcat a d >>= k) = strcat a b >>= k := by
  simpa using strcat_aside_append a b [] k

theorem strcat_eq {dst src req : Bytes} (h : strcat dst src = .ok req) : req = dst ++ src := by
  rw [strcat] at h
  split at h
  · exact (Except.ok.inj h).symm
  · cases h

theorem strcat_lt {dst src req : Bytes} (h : strcat dst src = .ok req) : req.length < MAXLINE := by
  rw [strcat] at h
  split at h
  · rename_i hlt
    rwa [← Except.ok.inj h, List.length_append]
  · cases h

/-! ### The header lines -/

theorem byCode_eq (h : Header) : (rewriteHeader (cstr h.line)).getD [] = h.byCode := by
  rw [rewriteHeader_eq, Header.byCode]
  change _ = (codeKind (cstr h.line)).out (cstr h.line)
  split
  · rename_i hd
    rw [hd]
    rfl
  · rfl

/-- No header line is the empty line. -/
theorem cstr_line_ne_crlf (h : Header) : cstr h.line ≠ str "\r\n" := by
  intro heq
  have hcolon : str ": " = 58 :: [32] := by decide
  have hmem : 58 ∈ cstr h.line := by
    rw [Header.line, List.append_assoc, List.append_assoc, cstr_append h.name_ok.1, hcolon]
    exact List.mem_append_right _ (by simp [cstr])
  rw [heq] at hmem
  exact absurd hmem (by decide)

/-- What a line is rewritten to, then the rest of the loop. -/
theorem headerLoop_rewrite {n : ℕ} {r : Rio} {req tail : Bytes} (out : Option Bytes)
    (hrec : ∀ req : Bytes, req.length < MAXLINE → headerLoop n r req = strcat req tail)
    (hreq : req.length < MAXLINE) :
    (match out with
      | none => headerLoop n r req
      | some out => do
        let req ← strcat req out
        headerLoop n r req) = strcat req (out.getD [] ++ tail) := by
  cases out with
  | none => exact hrec req hreq
  | some out =>
    rw [← strcat_strcat]
    simp only [Option.getD_some]
    cases hcat : strcat req out with
    | error e => rfl
    | ok req' => exact hrec req' (strcat_lt hcat)

theorem headerLoop_spec : ∀ {hs : List Header} {n : ℕ} {r : Rio} {req rest : Bytes},
    r.bytes = (hs.map Header.line).flatten ++ (str "\r\n" ++ rest) →
    (∀ h ∈ hs, h.line.length < MAXLINE) → req.length < MAXLINE → hs.length < n →
    headerLoop n r req = strcat req (hs.map Header.byCode).flatten
  | _, 0, _, _, _, _, _, _, hn => absurd hn (Nat.not_lt_zero _)
  | [], n + 1, r, req, rest, hbytes, _, hreq, _ => by
      have hcrlf : str "\r\n" = [13] ++ [10] := by decide
      have hb : r.bytes = [13] ++ 10 :: rest := by simpa [hcrlf] using hbytes
      obtain ⟨r', hline, -⟩ := rio_readlineb_line hb (by decide) (by decide : _ < MAXLINE)
      rw [headerLoop, hline]
      simp only
      rw [if_pos (by decide), strcat_ok (by simpa using hreq)]
      simp
  | h :: hs, n + 1, r, req, rest, hbytes, hlens, hreq, hn => by
      obtain ⟨w, hw, hline⟩ := isLine_line h
      have hlen := hlens h (by simp)
      have hb : r.bytes = w ++ 10 :: ((hs.map Header.line).flatten ++ (str "\r\n" ++ rest)) := by
        rw [hbytes, List.map_cons, List.flatten_cons, hline]
        simp
      have hwlen : w.length + 1 < MAXLINE := by
        rw [hline, List.length_append] at hlen
        exact hlen
      obtain ⟨r', hread, hbytes'⟩ := rio_readlineb_line hb hw hwlen
      rw [headerLoop, hread, ← hline]
      simp only
      rw [if_neg (cstr_line_ne_crlf h), List.map_cons, List.flatten_cons, ← byCode_eq h]
      have hrec : ∀ req : Bytes, req.length < MAXLINE →
          headerLoop n r' req = strcat req (hs.map Header.byCode).flatten := fun req hreq =>
        headerLoop_spec hbytes' (fun h hh => hlens h (List.mem_cons_of_mem _ hh)) hreq
          (Nat.lt_of_succ_lt_succ hn)
      exact headerLoop_rewrite _ hrec hreq

/-! ### The request -/

/-- The request holds what the loop over the header lines appends, between the same lines. -/
theorem buildRequest_eq {fuel : ℕ} {r : Rio} {path host headers : Bytes}
    (hheaders : ∀ req : Bytes, req.length < MAXLINE → headerLoop fuel r req = strcat req headers) :
    buildRequest fuel r (str "GET") path host = strcat [] (requestWith path host headers) := by
  have hloop : ∀ a b : Bytes, (strcat a b >>= fun req => headerLoop fuel r req >>= fun req =>
      strcat req (str "\r\n")) = strcat a (b ++ (headers ++ str "\r\n")) := by
    intro a b
    rw [← strcat_strcat]
    cases hcat : strcat a b with
    | error e => rfl
    | ok req =>
      rw [ok_bind, ok_bind, hheaders req (strcat_lt hcat), strcat_strcat]
  have hget : str "GET" ++ str " " = str "GET " := by decide
  rw [buildRequest]
  simp only [strcat_bind, strcat_aside, strcat_aside_append]
  rw [hloop, requestWith, ← hget]
  simp only [List.append_assoc]

theorem requestWith_inj {path host a b : Bytes} :
    requestWith path host a = requestWith path host b ↔ a = b := by
  simp [requestWith]

theorem parseUri_eq {stack : Stack} {uri host path : Bytes}
    (hscan : scanHostPath uri = (some host, some path)) :
    ∃ parsed, parseUri stack uri = (parsed, []) ∧ parsed.host = some host ∧
      parsed.path = some path := by
  have hin : (strstr uri (str "://")).isSome :=
    strstr_isSome.mpr (scanHostPath_host (congrArg Prod.fst hscan)).2
  rw [parseUri, if_pos hin, hscan]
  simp only [Stack.use]
  cases strstr host (str ":") with
  | none => exact ⟨_, rfl, rfl, rfl⟩
  | some temp_port => exact ⟨_, rfl, rfl, rfl⟩

/-- `read_request` on a GET request with host and path. -/
theorem read_request_get {hs : List Header} {fd : List ReadEv}
    {line uri version host path rest : Bytes} (stack : Stack)
    (hbytes : incoming fd = line ++ 10 :: ((hs.map Header.line).flatten ++ (str "\r\n" ++ rest)))
    (hline : 10 ∉ line) (hlen : line.length + 1 < MAXLINE)
    (hwords : scanWords 3 (cstr (line ++ [10])) = [str "GET", uri, version])
    (hscan : scanHostPath uri = (some host, some path))
    (hlens : ∀ h ∈ hs, h.line.length < MAXLINE) :
    ∃ parsed : Parsed, ∀ fuel, hs.length < fuel → read_request fuel stack fd =
      (strcat [] (requestWith path host (hs.map Header.byCode).flatten)).map fun req =>
        ({ parsed with request := some req }, []) := by
  have hb : (rio_readinitb fd).bytes = incoming fd := rfl
  obtain ⟨r, hread, hr⟩ := rio_readlineb_line (hb.trans hbytes) hline hlen
  obtain ⟨parsed, hparse, hhost, hpath⟩ := @parseUri_eq stack uri host path hscan
  refine ⟨parsed, ?_⟩
  intro fuel hfuel
  rw [read_request, hread]
  simp only [lineBuf, hwords, hparse, hhost, hpath, Stack.use]
  rw [if_pos trivial, if_neg (by decide),
    buildRequest_eq fun req hreq => headerLoop_spec hr hlens hreq hfuel]
  cases strcat [] (requestWith path host (hs.map Header.byCode).flatten) with
  | error e => rfl
  | ok req => rfl

/-- On lines that are all clear, the code's treatment is the one by name. -/
theorem byCode_of_clear {h : Header} (hc : Clear h) : h.byCode = h.byName := by
  obtain ⟨hkind, hzero⟩ := (clear_iff h).mp hc
  rw [Header.byCode, Header.byName, hkind]
  cases hk : h.nameKind with
  | keep => exact cstr_of_not_mem (hzero hk)
  | _ => rfl

/-- The request is the one that goes by field names iff every header line is clear. -/
theorem rewritten_by_name_iff (stack : Stack) (fd : List ReadEv) (hs : List Header)
    (line uri version host path rest : Bytes)
    (hbytes : incoming fd = line ++ 10 :: ((hs.map Header.line).flatten ++ (str "\r\n" ++ rest)))
    (hline : 10 ∉ line) (hlen : line.length + 1 < MAXLINE)
    (hwords : scanWords 3 (cstr (line ++ [10])) = [str "GET", uri, version])
    (hscan : scanHostPath uri = (some host, some path))
    (hlens : ∀ h ∈ hs, h.line.length < MAXLINE)
    (hfits : (requestByName path host hs).length < MAXLINE) :
    (∃ parsed acts, Converges (fun fuel => read_request fuel stack fd) (parsed, acts) ∧
      parsed.request = some (requestByName path host hs)) ↔ ∀ h ∈ hs, Clear h := by
  constructor
  · rintro ⟨parsed, acts, hrun, hreq⟩
    obtain ⟨fuel, hfuel, hres⟩ := hrun.above (hs.length + 1)
    obtain ⟨q, hq⟩ := read_request_get stack hbytes hline hlen hwords hscan hlens
    rw [hq fuel hfuel] at hres
    cases hcat : strcat [] (requestWith path host (hs.map Header.byCode).flatten) with
    | error e =>
      rw [hcat] at hres
      cases hres
    | ok req =>
      rw [hcat] at hres
      obtain ⟨rfl, -⟩ := Prod.mk.inj (Except.ok.inj hres)
      have heq : (hs.map Header.byCode).flatten = (hs.map Header.byName).flatten :=
        requestWith_inj.mp ((strcat_eq hcat).symm.trans (Option.some.inj hreq))
      intro h hh
      exact (clear_iff h).mpr ⟨kinds_eq heq h hh, keep_clean heq h hh⟩
  · intro hclear
    have heq : hs.map Header.byCode = hs.map Header.byName :=
      List.map_congr_left fun h hh => byCode_of_clear (hclear h hh)
    obtain ⟨q, hq⟩ := read_request_get stack hbytes hline hlen hwords hscan hlens
    refine ⟨{ q with request := some (requestByName path host hs) }, [], ⟨hs.length + 1, ?_⟩, rfl⟩
    intro fuel hfuel
    change read_request fuel stack fd = _
    have hcat : strcat [] (requestByName path host hs) = .ok (requestByName path host hs) :=
      strcat_ok hfits
    rw [hq fuel hfuel, heq, ← requestByName, hcat]
    rfl

/-- `X-Note: ask the Host`, which is not a `Host` line. -/
def noteHeader : Header where
  name := str "X-Note"
  value := str "ask the Host"
  nonempty := by decide
  name_ok := by decide
  value_ok := by decide

def acceptHeader : Header where
  name := str "Accept"
  value := str "*/*"
  nonempty := by decide
  name_ok := by decide
  value_ok := by decide

/-- A request line without its line break. -/
def getLine : Bytes := str "GET http://h/ HTTP/1.1\r"

/-- The request of a client: request line, header lines, empty line. -/
def getRequest (hs : List Header) : Bytes :=
  getLine ++ 10 :: ((hs.map Header.line).flatten ++ (str "\r\n" ++ []))

theorem rewritten_by_name_accept :
    (∃ parsed acts, Converges (fun fuel => read_request fuel .blank
        (arriving (getRequest [acceptHeader]))) (parsed, acts) ∧
      parsed.request = some (requestByName (str "/") (str "h") [acceptHeader])) ↔
    ∀ h ∈ [acceptHeader], Clear h :=
  rewritten_by_name_iff .blank _ [acceptHeader] getLine (str "http://h/") (str "HTTP/1.1")
    (str "h") (str "/") [] (incoming_arriving _) (by decide) (by decide) (by decide) (by decide)
    (by decide) (by decide)

/-- A line with another name is dropped because its value names `Host`. -/
theorem note_dropped :
    incoming (arriving (getRequest [noteHeader])) = getRequest [noteHeader] ∧
    noteHeader.line.length < MAXLINE ∧
    (requestByName (str "/") (str "h") [noteHeader]).length < MAXLINE ∧
    ¬ ∃ parsed acts, Converges (fun fuel => read_request fuel .blank
        (arriving (getRequest [noteHeader]))) (parsed, acts) ∧
      parsed.request = some (requestByName (str "/") (str "h") [noteHeader]) := by
  refine ⟨incoming_arriving _, by decide, by decide, ?_⟩
  rintro ⟨parsed, acts, hrun, hreq⟩
  obtain ⟨q, hq⟩ := @read_request_get [noteHeader] _ getLine (str "http://h/") (str "HTTP/1.1")
    (str "h") (str "/") [] .blank (incoming_arriving (getRequest [noteHeader])) (by decide)
    (by decide) (by decide) (by decide) (by decide)
  have hdrop : requestWith (str "/") (str "h") ([noteHeader].map Header.byCode).flatten =
      requestByName (str "/") (str "h") [] := by decide
  have hcat : strcat [] (requestByName (str "/") (str "h") []) =
      .ok (requestByName (str "/") (str "h") []) := strcat_ok (by decide)
  obtain ⟨fuel, hfuel, hres⟩ := hrun.above 2
  rw [hq fuel hfuel, hdrop, hcat] at hres
  obtain ⟨rfl, -⟩ := Prod.mk.inj (Except.ok.inj hres)
  exact absurd (Option.some.inj hreq) (by decide)

end Labs.Http
