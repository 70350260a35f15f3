import SystemsLabs.Proxylab.Reject
import SystemsLabs.Proxylab.Rewrite

/-! @lab proxylab | file:proxy.c (read_request) | scheme:text | main result:when the request fits

    The request is built by `strcat` without a look at the room left in `tmp` and `req`. Whatever the
    connection delivers, the strings that are built are pieces of one text, so they fit iff that text
    does: its length is that of path and host, stale ones included, plus what every header line
    adds. A line that is replaced can grow, so short lines suffice to run over the array. -/

namespace Labs.Http
open Schemes

/-- The header lines that are read: up to the empty line, the end of file or an error. -/
def linesFrom : ℕ → Rio → List Bytes
  | 0, _ => []
  | n + 1, r =>
    match rio_readlineb r MAXLINE with
    | (.line bytes, r) =>
      if cstr bytes = str "\r\n" then [] else cstr bytes :: linesFrom n r
    | _ => []

/-- The connection behind the first line. -/
def afterLine (fd : List ReadEv) : Rio := (rio_readlineb (rio_readinitb fd) MAXLINE).2

def headerLines (fd : List ReadEv) : List Bytes :=
  linesFrom ((afterLine fd).bytes.length + 1) (afterLine fd)

/-- What header lines contribute to the request. -/
def contribution (lines : List Bytes) : Bytes :=
  (lines.map fun buf => (rewriteHeader buf).getD []).flatten

/-- How much room a header line takes. -/
def headerCost (buf : Bytes) : ℕ :=
  if str "User-Agent" <:+: buf then user_agent_header.length
  else if str "Proxy-Connection" <:+: buf then proxy_connection_header.length
  else if str "Connection" <:+: buf then connection_header.length
  else if str "Host" <:+: buf ∨ str "GET" <:+: buf then 0
  else buf.length

/-- No `strcpy` or `strcat` of `read_request` runs over its array: it comes to its end. -/
def Fits (stack : Stack) (fd : List ReadEv) : Prop :=
  ∃ result, Converges (fun fuel => read_request fuel stack fd) result

/-- Of a GET, path, host and header lines leave room for 25 more bytes and the NUL. -/
def Bounded (stack : Stack) (fd : List ReadEv) : Prop :=
  ∀ uri version, scannedWords stack fd = [str "GET", uri, version] →
    ((scanHostPath uri).2.getD (stack.stale .path)).length +
      ((scanHostPath uri).1.getD (stack.stale .host)).length +
      ((headerLines fd).map headerCost).sum + 25 < MAXLINE

/-! ### The loop over the header lines -/

section Lines
variable {stack : Stack} {fd : List ReadEv} {uri version path host : Bytes}

/-- Every line takes bytes off the connection, so more fuel than bytes is enough. -/
theorem headerLoop_lines : ∀ {n m : ℕ} {r : Rio} {req : Bytes}, r.bytes.length < n →
    r.bytes.length < m → req.length < MAXLINE →
    headerLoop n r req = strcat req (contribution (linesFrom m r)) := by
  intro n
  induction n with
  | zero => exact fun hn => absurd hn (Nat.not_lt_zero _)
  | succ n ih =>
    intro m r req hn hm hreq
    obtain ⟨m, rfl⟩ := Nat.exists_eq_add_of_le' (Nat.one_le_of_lt hm)
    have hstop : strcat req [] = .ok req := by
      rw [strcat_ok (by simpa using hreq), List.append_nil]
    rw [headerLoop, linesFrom]
    rcases hread : rio_readlineb r MAXLINE with ⟨line, r'⟩
    cases line with
    | eof => exact hstop.symm
    | error bytes => exact hstop.symm
    | line bytes =>
      obtain ⟨hne, hsplit⟩ := rio_readlineb_split (by decide) hread
      have hshort : r'.bytes.length < r.bytes.length := by
        rw [hsplit, List.length_append]
        exact Nat.lt_add_of_pos_left (List.length_pos_of_ne_nil hne)
      simp only
      split
      · exact hstop.symm
      · rw [contribution, List.map_cons, List.flatten_cons, ← contribution]
        have hrec : ∀ req : Bytes, req.length < MAXLINE →
            headerLoop n r' req = strcat req (contribution (linesFrom m r')) :=
          fun req hreq => ih (by omega) (by omega) hreq
        exact headerLoop_rewrite _ hrec hreq

theorem rewriteHeader_cost (buf : Bytes) :
    ((rewriteHeader buf).getD []).length = headerCost buf := by
  simp only [rewriteHeader, headerCost, Bool.or_eq_true, strstr_isSome]
  split_ifs <;> simp

theorem contribution_length (lines : List Bytes) :
    (contribution lines).length = (lines.map headerCost).sum := by
  rw [contribution, List.length_flatten, List.map_map]
  simp only [Function.comp_def, rewriteHeader_cost]

theorem requestWith_length (path host headers : Bytes) :
    (requestWith path host headers).length =
      path.length + host.length + headers.length + 25 := by
  have hconst : (str "GET ").length + (str " ").length + version_head.length +
      (str "Host: ").length + (str "\r\n").length + (str "\r\n").length = 25 := by decide
  simp only [requestWith, List.length_append]
  omega

/-! ### The whole request -/

theorem use_getD (stack : Stack) (b : Buf) (v : Option Bytes) :
    (stack.use b v).1 = v.getD (stack.stale b) := by
  cases v with
  | none => rfl
  | some v => rfl

/-- Host and path come from `sscanf` alone: without `://` it assigns neither. -/
theorem parseUri_scan (stack : Stack) (uri : Bytes) :
    (parseUri stack uri).1.host = (scanHostPath uri).1 ∧
      (parseUri stack uri).1.path = (scanHostPath uri).2 := by
  rw [parseUri]
  rcases em (str "://" <:+: uri) with hin | hin
  · rw [if_pos (strstr_isSome.mpr hin)]
    simp only
    split
    · exact ⟨rfl, rfl⟩
    · exact ⟨rfl, rfl⟩
  · rw [if_neg (fun h => hin (strstr_isSome.mp h))]
    have hnone : scanHostPath uri = (none, none) := by
      have hhost := fun host h => hin (@scanHostPath_host uri host h).2
      unfold scanHostPath at hhost ⊢
      split
      · rfl
      · split
        · rfl
        · simp_all
    rw [hnone]
    exact ⟨rfl, rfl⟩

/-- A GET comes down to one concatenation. -/
theorem read_request_lines (h : scannedWords stack fd = [str "GET", uri, version]) {fuel : ℕ}
    (hfuel : (afterLine fd).bytes.length < fuel) : read_request fuel stack fd =
    (strcat [] (requestWith ((scanHostPath uri).2.getD (stack.stale .path))
      ((scanHostPath uri).1.getD (stack.stale .host)) (contribution (headerLines fd)))).map
      fun req => ({ (parseUri stack uri).1 with request := some req },
        (parseUri stack uri).2 ++ (stack.use .path (scanHostPath uri).2).2 ++
          (stack.use .host (scanHostPath uri).1).2) := by
  obtain ⟨hhost, hpath⟩ := parseUri_scan stack uri
  have hheaders : ∀ req : Bytes, req.length < MAXLINE →
      headerLoop fuel (afterLine fd) req = strcat req (contribution (headerLines fd)) :=
    fun req hreq => headerLoop_lines hfuel (Nat.lt_succ_self _) hreq
  rw [scannedWords] at h
  rw [read_request]
  simp only [h]
  rw [if_pos trivial, if_neg (by decide), hhost, hpath, ← afterLine, buildRequest_eq hheaders,
    use_getD, use_getD, List.append_nil]
  cases strcat [] _ with
  | error e => rfl
  | ok req => rfl

/-- A GET fits iff its request does. -/
theorem fits_get (h : scannedWords stack fd = [str "GET", uri, version]) :
    Fits stack fd ↔ (requestWith ((scanHostPath uri).2.getD (stack.stale .path))
      ((scanHostPath uri).1.getD (stack.stale .host))
      (contribution (headerLines fd))).length < MAXLINE := by
  constructor
  · rintro ⟨result, hrun⟩
    obtain ⟨fuel, hfuel, hres⟩ := hrun.above ((afterLine fd).bytes.length + 1)
    rw [read_request_lines h hfuel] at hres
    cases hcat : strcat [] (requestWith _ _ (contribution (headerLines fd))) with
    | error e =>
      rw [hcat] at hres
      cases hres
    | ok req =>
      have hlt := strcat_lt hcat
      rwa [strcat_eq hcat] at hlt
  · intro hlt
    exact ⟨_, (afterLine fd).bytes.length + 1, fun fuel hfuel =>
      (read_request_lines h hfuel).trans (congrArg (Except.map _) (@strcat_ok [] _ hlt))⟩

/-- What is not a GET builds no request. -/
theorem fits_other (h : ∀ uri version, scannedWords stack fd ≠ [str "GET", uri, version]) :
    Fits stack fd := by
  rcases Nat.decEq (scannedWords stack fd).length 3 with hlen | hlen
  · exact ⟨_, 0, fun fuel _ => read_request_malformed hlen fuel⟩
  · obtain ⟨method, uri, version, hscan⟩ := List.length_eq_three.mp hlen
    have hget : method ≠ str "GET" := by
      rintro rfl
      exact h uri version hscan
    exact ⟨_, 0, fun fuel _ => read_request_other hscan hget fuel⟩

end Lines

/-- The request is built within its arrays iff path, host and header lines leave room for the rest
    of it. -/
theorem request_fits_iff (stack : Stack) (fd : List ReadEv) : Fits stack fd ↔ Bounded stack fd := by
  rcases em (∃ uri version, scannedWords stack fd = [str "GET", uri, version]) with
    ⟨uri, version, h⟩ | h
  · rw [fits_get h, requestWith_length, contribution_length, Bounded]
    constructor
    · intro hlt uri' version' h'
      obtain ⟨-, htail⟩ := List.cons.inj (h.symm.trans h')
      obtain ⟨rfl, -⟩ := List.cons.inj htail
      exact hlt
    · intro hbound
      exact hbound uri version h
  · have hno : ∀ uri version, scannedWords stack fd ≠ [str "GET", uri, version] :=
      fun uri version heq => h ⟨uri, version, heq⟩
    exact iff_of_true (fits_other hno) fun uri version heq => absurd heq (hno uri version)

/-- A GET whose header lines make the request too long runs over the array. -/
theorem get_overruns {hs : List Header} (hlens : ∀ h ∈ hs, h.line.length < MAXLINE)
    (hlong : MAXLINE ≤ (hs.map Header.byCode).flatten.length) :
    ¬ Fits .blank (arriving (getRequest hs)) := by
  rintro ⟨result, hrun⟩
  obtain ⟨q, hq⟩ := @read_request_get hs (arriving (getRequest hs)) getLine (str "http://h/")
    (str "HTTP/1.1") (str "h") (str "/") [] .blank (incoming_arriving _) (by decide) (by decide)
    (by decide) (by decide) hlens
  obtain ⟨fuel, hfuel, hres⟩ := hrun.above (hs.length + 1)
  have hcat : strcat [] (requestWith (str "/") (str "h") (hs.map Header.byCode).flatten) =
      .error .fault := by
    rw [strcat, if_neg]
    rw [requestWith_length]
    omega
  rw [hq fuel hfuel, hcat] at hres
  cases hres

def agentHeader : Header where
  name := str "User-Agent"
  value := str "a"
  nonempty := by decide
  name_ok := by decide
  value_ok := by decide

/-- A hundred header lines of 15 bytes are replaced by longer ones, which run over the array. -/
theorem agents_overrun : agentHeader.line.length = 15 ∧
    incoming (arriving (getRequest (List.replicate 100 agentHeader))) =
      getRequest (List.replicate 100 agentHeader) ∧
    ¬ Fits .blank (arriving (getRequest (List.replicate 100 agentHeader))) := by
  have hline : agentHeader.line.length = 15 := by decide
  have hcode : agentHeader.byCode.length = 86 := by decide
  refine ⟨hline, incoming_arriving _, get_overruns ?_ ?_⟩
  · intro h hh
    rw [List.eq_of_mem_replicate hh, hline]
    decide
  · rw [List.map_replicate, List.length_flatten, List.map_replicate, hcode, List.sum_replicate]
    decide

end Labs.Http
