import SystemsLabs.Proxylab.RequestFits

/-! @lab proxylab | file:proxy.c (read_request) | scheme:text | main result:when a URI is taken apart

    An absolute URI is a host name, perhaps a port, perhaps a path. The two `sscanf` patterns and the
    searches for `://` and `:` take host, host name and port from it as they are written, whatever
    the path holds. A missing port has a default; a missing path has none, and the path in the
    request is then what the stack held. -/

namespace Labs.Http
open Schemes

/-- `http://H[:P][/rest]` -/
structure AbsoluteUri where
  name : Bytes
  port : Option Bytes
  rest : Option Bytes
  nonempty : name ≠ []
  name_ok : ∀ c ∈ name, c ≠ 0 ∧ c ≠ 47 ∧ c ≠ 58 ∧ isspace c = false
  port_ok : ∀ p ∈ port, p ≠ [] ∧ ∀ c ∈ p, isdigit c = true
  rest_ok : ∀ r ∈ rest, ∀ c ∈ r, c ≠ 0 ∧ isspace c = false

namespace AbsoluteUri

def host (u : AbsoluteUri) : Bytes := u.name ++ (u.port.map (58 :: ·)).getD []

/-- What is written behind the host. -/
def tail (u : AbsoluteUri) : Bytes := (u.rest.map (47 :: ·)).getD []

def text (u : AbsoluteUri) : Bytes := str "http://" ++ (u.host ++ u.tail)

/-- The path to ask for. -/
def path (u : AbsoluteUri) : Bytes := 47 :: u.rest.getD []

def requestLine (u : AbsoluteUri) (version : Bytes) : Bytes :=
  str "GET" ++ 32 :: (u.text ++ 32 :: version)

/-- The buffers as the URI has them. -/
def parsed (u : AbsoluteUri) : Parsed :=
  { host := some u.host, hostname := some u.name, port := some (u.port.getD (str "80")),
    path := some u.path, uri := some u.text, request := none }

end AbsoluteUri

/-- The client sends the request line for `u`, shorter than `MAXLINE`, and anything behind it. -/
structure Sends (u : AbsoluteUri) (version : Bytes) (fd : List ReadEv) : Prop where
  version_ok : version ≠ [] ∧ ∀ c ∈ version, c ≠ 0 ∧ isspace c = false
  line : ∃ eol more, (eol = [] ∨ eol = [13]) ∧
    incoming fd = u.requestLine version ++ eol ++ 10 :: more
  short : (u.requestLine version).length < MAXLINE

/-- `read_request` assigns the buffers as the URI has them, and uses none that it did not assign; it
    ends with the request for that path and host, or runs over the array because that is too long. -/
structure SplitAsWritten (u : AbsoluteUri) (stack : Stack) (fd : List ReadEv) : Prop where
  scanned : ∃ version, scannedWords stack fd = [str "GET", u.text, version]
  assigned : parseUri stack u.text = (u.parsed, [])
  sent : ∃ n, ∀ fuel, n ≤ fuel → read_request fuel stack fd =
    (strcat [] (requestWith u.path u.host (contribution (headerLines fd)))).map fun req =>
      ({ u.parsed with request := some req }, [])

/-! ### The URI -/

section Uri
variable {u : AbsoluteUri}

theorem host_clean (u : AbsoluteUri) : ∀ c ∈ u.host, c ≠ 0 ∧ c ≠ 47 ∧ isspace c = false := by
  intro c hc
  rcases List.mem_append.mp hc with hc | hc
  · obtain ⟨hzero, hslash, -, hspace⟩ := u.name_ok c hc
    exact ⟨hzero, hslash, hspace⟩
  · cases hport : u.port with
    | none =>
      rw [hport] at hc
      cases hc
    | some p =>
      rw [hport] at hc
      rcases List.mem_cons.mp hc with rfl | hc
      · decide
      · have hdigit := (u.port_ok p hport).2 c hc
        obtain ⟨hlow, -⟩ := isdigit_bounds hdigit
        refine ⟨?_, ?_, isspace_of_isdigit hdigit⟩
        · rintro rfl
          exact absurd hlow (by decide)
        · rintro rfl
          exact absurd hlow (by decide)

theorem host_nonempty (u : AbsoluteUri) : u.host ≠ [] :=
  List.append_ne_nil_of_left_ne_nil u.nonempty _

theorem tail_clean (u : AbsoluteUri) : ∀ c ∈ u.tail, c ≠ 0 ∧ isspace c = false := by
  intro c hc
  rw [AbsoluteUri.tail] at hc
  cases hrest : u.rest with
  | none =>
    rw [hrest] at hc
    cases hc
  | some r =>
    rw [hrest] at hc
    rcases List.mem_cons.mp hc with rfl | hc
    · decide
    · exact u.rest_ok r hrest c hc

theorem text_clean (u : AbsoluteUri) : ∀ c ∈ u.text, c ≠ 0 ∧ isspace c = false := by
  have hscheme : ∀ c ∈ str "http://", c ≠ 0 ∧ isspace c = false := forall_of_all (by decide)
  intro c hc
  rcases List.mem_append.mp hc with hc | hc
  · exact hscheme c hc
  · rcases List.mem_append.mp hc with hc | hc
    · obtain ⟨hzero, -, hspace⟩ := host_clean u c hc
      exact ⟨hzero, hspace⟩
    · exact tail_clean u c hc

/-- The patterns take the host as it is written, and the path if there is one. -/
theorem scanHostPath_text (u : AbsoluteUri) :
    scanHostPath u.text = (some u.host, u.rest.map (47 :: ·)) := by
  have hslash : ∀ d ∈ u.tail.head?, d = 47 := by
    intro d hd
    rw [AbsoluteUri.tail] at hd
    cases hrest : u.rest with
    | none =>
      rw [hrest] at hd
      cases hd
    | some r =>
      rw [hrest] at hd
      exact (Option.some.inj hd).symm
  have hhost : scanUntil 47 (u.host ++ u.tail) = some (u.host, u.tail) :=
    scanUntil_eq (host_nonempty u) (fun h => (host_clean u 47 h).2.1 rfl) hslash
  rw [scanHostPath, AbsoluteUri.text, scanLit_append]
  simp only [hhost]
  congr 1
  have hclean := tail_clean u
  rw [AbsoluteUri.tail] at hclean ⊢
  cases hrest : u.rest with
  | none => rfl
  | some r =>
    rw [hrest] at hclean
    have hword := @scanWord_word (47 :: r) [] (List.cons_ne_nil _ _) (fun c hc => (hclean c hc).2)
      (fun c hc => by cases hc)
    rw [List.append_nil] at hword
    change (scanWord (47 :: r)).map Prod.fst = _
    rw [hword]
    rfl

/-- Host name and port are those of the URI, whether it names a port or not. -/
theorem parseUri_text (u : AbsoluteUri) (stack : Stack) :
    parseUri stack u.text = ({ u.parsed with path := u.rest.map (47 :: ·) }, []) := by
  have hin : str "://" <:+: u.text := (scanHostPath_host (congrArg Prod.fst (scanHostPath_text u))).2
  have hcolon : str ":" = [58] := rfl
  have hname : 58 ∉ u.name := fun h => (u.name_ok 58 h).2.2.1 rfl
  rw [parseUri, if_pos (strstr_isSome.mpr hin), scanHostPath_text, hcolon]
  simp only [Stack.use, strstr_single, AbsoluteUri.parsed, AbsoluteUri.host]
  cases hport : u.port with
  | none => simp [hname]
  | some p =>
    have hscan : scanUntil 58 (u.name ++ 58 :: p) = some (u.name, 58 :: p) :=
      scanUntil_eq u.nonempty hname fun d hd => (Option.some.inj hd).symm
    have hdrop : (u.name ++ 58 :: p).dropWhile (· ≠ 58) = 58 :: p :=
      List.dropWhile_append_of_pos (ne_of_not_mem hname)
    have hmem : 58 ∈ u.name ++ 58 :: p := List.mem_append_right _ List.mem_cons_self
    simp only [Option.map_some, Option.getD_some, if_pos hmem, hdrop, hscan]
    rfl

end Uri

/-! ### The request line -/

section Request
variable {u : AbsoluteUri} {version : Bytes} {fd : List ReadEv} {stack : Stack}

/-- A request line that is shorter than `MAXLINE` is read at least up to its line break. -/
theorem Sends.read (h : Sends u version fd) : ∃ t r, (∀ c ∈ t, c ≠ 0 ∧ isspace c = true) ∧
    rio_readlineb (rio_readinitb fd) MAXLINE = (.line (u.requestLine version ++ t), r) := by
  obtain ⟨eol, more, heol, hbytes⟩ := h.line
  have hbreak : ∀ c ∈ eol ++ [10], c ≠ 0 ∧ isspace c = true := by
    rcases heol with rfl | rfl
    · exact forall_of_all (by decide)
    · exact forall_of_all (by decide)
  have hno : 10 ∉ u.requestLine version ++ eol := by
    have hspace : isspace 10 = true := rfl
    have htext := fun hc => text_clean u 10 hc
    have hversion := fun hc => h.version_ok.2 10 hc
    have hget : 10 ∉ str "GET" := by decide
    rw [AbsoluteUri.requestLine]
    rcases heol with rfl | rfl
    · simp_all
    · simp_all
  have hb : (rio_readinitb fd).bytes = incoming fd := rfl
  obtain ⟨r, hread, -⟩ := rio_readlineb_take MAXLINE (hb.trans hbytes) hno
  have hshort : (u.requestLine version).length ≤ MAXLINE - 1 := Nat.le_sub_one_of_lt h.short
  rw [List.append_assoc, List.take_append, List.take_of_length_le hshort] at hread
  exact ⟨_, r, fun c hc => hbreak c (List.mem_of_mem_take hc), hread⟩

theorem Sends.scanned (h : Sends u version fd) (stack : Stack) :
    scannedWords stack fd = [str "GET", u.text, version] := by
  obtain ⟨t, r, ht, hread⟩ := h.read
  have hclean : 0 ∉ u.requestLine version ++ t := by
    have htext := fun hc => text_clean u 0 hc
    have hversion := fun hc => h.version_ok.2 0 hc
    have hend := fun hc => ht 0 hc
    have hget : 0 ∉ str "GET" := by decide
    rw [AbsoluteUri.requestLine]
    simp_all
  have hends : Ends t := fun c hc => (ht c (List.mem_of_mem_head? hc)).2
  have htext : u.text ≠ [] := by
    rw [AbsoluteUri.text]
    exact List.append_ne_nil_of_left_ne_nil (by decide) _
  rw [scannedWords, hread, lineBuf, cstr_of_not_mem hclean, AbsoluteUri.requestLine]
  have hwords := scanWords_three (a := str "GET") (b := u.text) (v := version) (s := t)
    ⟨by decide, forall_of_all (by decide)⟩ ⟨htext, fun c hc => (text_clean u c hc).2⟩
    ⟨h.version_ok.1, fun c hc => (h.version_ok.2 c hc).2⟩ hends
  simpa using hwords

/-- A URI without path leaves the path unassigned. -/
theorem not_split_of_bare (h : u.rest = none) : ¬ SplitAsWritten u stack fd := by
  intro hsplit
  have hpath := congrArg (fun x => x.1.path) (hsplit.assigned.symm.trans (parseUri_text u stack))
  simp only [AbsoluteUri.parsed, h] at hpath
  cases hpath

/-- Then the server is asked for the path that the stack holds. -/
theorem Sends.bare (h : Sends u version fd) (hbare : u.rest = none) {fuel : ℕ}
    (hfuel : (afterLine fd).bytes.length < fuel) : read_request fuel stack fd =
    (strcat [] (requestWith (stack.stale .path) u.host (contribution (headerLines fd)))).map
      fun req => ({ u.parsed with path := none, request := some req }, [.unassigned .path]) := by
  rw [read_request_lines (h.scanned stack) hfuel, scanHostPath_text, parseUri_text, hbare]
  rfl

end Request

/-- Host, host name, port and path are the client's, and the request with them, iff the URI has a
    path. -/
theorem split_as_written_iff (u : AbsoluteUri) (version : Bytes) (stack : Stack)
    (fd : List ReadEv) (h : Sends u version fd) :
    SplitAsWritten u stack fd ↔ u.rest.isSome := by
  constructor
  · intro hsplit
    cases hrest : u.rest with
    | none => exact absurd hsplit (not_split_of_bare hrest)
    | some r => rfl
  · intro hsome
    obtain ⟨r, hrest⟩ := Option.isSome_iff_exists.mp hsome
    have hpath : u.rest.map (47 :: ·) = some u.path := by
      rw [AbsoluteUri.path, hrest]
      rfl
    have hparse : parseUri stack u.text = (u.parsed, []) := by
      rw [parseUri_text, hpath]
      rfl
    refine ⟨⟨version, h.scanned stack⟩, hparse, (afterLine fd).bytes.length + 1, ?_⟩
    intro fuel hfuel
    rw [read_request_lines (h.scanned stack) hfuel, scanHostPath_text, hpath, hparse]
    rfl

/-- `http://h:8080/a:b` -/
def portUri : AbsoluteUri where
  name := str "h"
  port := some (str "8080")
  rest := some (str "a:b")
  nonempty := by decide
  name_ok := forall_of_all (by decide)
  port_ok p hp := by
    obtain rfl := Option.some.inj hp
    exact ⟨by decide, forall_of_all (by decide)⟩
  rest_ok r hr := by
    obtain rfl := Option.some.inj hr
    exact forall_of_all (by decide)

theorem sends_port : Sends portUri (str "HTTP/1.1")
    (arriving (str "GET http://h:8080/a:b HTTP/1.1\r\n\r\n")) where
  version_ok := ⟨by decide, forall_of_all (by decide)⟩
  line := ⟨[13], str "\r\n", Or.inr rfl, by decide⟩
  short := by decide

theorem split_as_written_port :
    SplitAsWritten portUri .blank (arriving (str "GET http://h:8080/a:b HTTP/1.1\r\n\r\n")) :=
  (split_as_written_iff portUri (str "HTTP/1.1") .blank _ sends_port).mpr rfl

/-- `http://h` -/
def bareUri : AbsoluteUri where
  name := str "h"
  port := none
  rest := none
  nonempty := by decide
  name_ok := forall_of_all (by decide)
  port_ok := nofun
  rest_ok := nofun

def bareRequest : List ReadEv := arriving (str "GET http://h HTTP/1.1\r\n\r\n")

/-- A stack where the path of an earlier request is left. -/
def usedStack : Stack := ⟨fun _ => str "/old", fun _ => []⟩

/-- For a URI without path, the server is asked for what the stack holds. -/
theorem bare_asks_for_old : Sends bareUri (str "HTTP/1.1") bareRequest ∧
    ¬ SplitAsWritten bareUri usedStack bareRequest ∧
    ∃ parsed acts, Converges (fun fuel => read_request fuel usedStack bareRequest) (parsed, acts) ∧
      parsed.request = some (requestWith (str "/old") (str "h") []) := by
  have hsends : Sends bareUri (str "HTTP/1.1") bareRequest :=
    { version_ok := ⟨by decide, forall_of_all (by decide)⟩
      line := ⟨[13], str "\r\n", Or.inr rfl, by decide⟩
      short := by decide }
  refine ⟨hsends, not_split_of_bare rfl, ?_⟩
  have hheaders : contribution (headerLines bareRequest) = [] := by decide
  have hcat : strcat [] (requestWith (str "/old") (str "h") []) =
      .ok (requestWith (str "/old") (str "h") []) := strcat_ok (by decide)
  refine ⟨{ bareUri.parsed with
      path := none, request := some (requestWith (str "/old") (str "h") []) },
    [.unassigned .path], ⟨(afterLine bareRequest).bytes.length + 1, fun fuel hfuel => ?_⟩, rfl⟩
  change read_request fuel usedStack bareRequest = _
  rw [hsends.bare rfl hfuel, hheaders]
  exact congrArg (Except.map _) hcat

end Labs.Http
