import SystemsLabs.Proxylab.Doit

/-! @lab proxylab | file:proxy.c (doit, send_request_to_server) | scheme:transition | main result:what
    a thread has released when it returns

    The `doit` threads with their descriptors and their heap cell, interleaved call by call over one
    cache. What the system answers (`pthread_mutex_init`, `open_clientfd`, the write of the request)
    is part of the step, and every call goes into the thread's `log`, latest first. Two early returns
    of `doit` close the client and forget `argp`; `send_request_to_server` turns a failed write into
    -1 and the server's descriptor is lost with it. A section or a relay that does not end is no
    step: that thread never returns. -/

namespace Labs.Http
open Schemes Labs.WebCache

/-- What `main` hands to the thread and what the client sends: the descriptor, the cell it is in, the
    buffers on the stack, the bytes. -/
structure Conn where
  fd : ℕ
  argp : ℕ
  stack : Stack
  content : List ReadEv

/-- Where `doit` is; the locals that are used later. -/
inductive Point where
  | start
  | parsed (req : Parsed)
  | ready (req : Parsed)
  | hit (response : Bytes)
  | missed (req : Parsed)
  | connected (req : Parsed) (server_fd : ℕ)
  | written (req : Parsed) (server_fd : ℕ)
  | relayed (req : Parsed) (server_fd : ℕ) (response : Bytes) (size : ℕ)
  | stored (server_fd : ℕ)
  | closing (early : Bool)
  | closed
  | returned

/-- The calls of `doit`, with their outcomes. -/
inductive Did where
  | read_request
  | pthread_mutex_init (ok : Bool)
  | search_cache (found : Bool)
  | send
  | open_clientfd (server_fd : Option ℕ)
  | write (ok : Bool)
  | relay (origin : List ReadEv)
  | store (elem : Ptr)
  | close (fd : ℕ)
  | free (argp : ℕ)
  deriving DecidableEq

/-- The shared state, and of each thread where it is and what it has called. -/
structure Host (T : Type) where
  proxy : Proxy
  point : T → Point
  log : T → List Did

section Threads
variable {T : Type} [DecidableEq T]

/-- Thread `t` makes a call and goes on. -/
def Host.go (s : Host T) (t : T) (d : Did) (c : Point) : Host T :=
  { s with point := Function.update s.point t c, log := Function.update s.log t (d :: s.log t) }

/-- The `uri` buffer of a thread. -/
def Conn.uri (c : Conn) (req : Parsed) : Bytes := (c.stack.use .uri req.uri).1

/-- One call of thread `t`. An open descriptor is not given out again. -/
inductive DoitStep (conn : T → Conn) (s : Host T) (t : T) : Did → Host T → Prop
  | parse (req acts) (h : s.point t = .start)
      (hreq : Converges (fun fuel => read_request fuel (conn t).stack (conn t).content) (req, acts)) :
      DoitStep conn s t .read_request (s.go t .read_request (.parsed req))
  | init (ok req) (h : s.point t = .parsed req) :
      DoitStep conn s t (.pthread_mutex_init ok)
        (s.go t (.pthread_mutex_init ok) (if ok then .ready req else .closing true))
  | hit (req p' response) (h : s.point t = .ready req)
      (hfound : Converges (fun fuel => lookupSection fuel s.proxy ((conn t).uri req))
        (p', some response)) :
      DoitStep conn s t (.search_cache true)
        { s.go t (.search_cache true) (.hit response) with proxy := p' }
  | miss (req p') (h : s.point t = .ready req)
      (hfound : Converges (fun fuel => lookupSection fuel s.proxy ((conn t).uri req)) (p', none)) :
      DoitStep conn s t (.search_cache false)
        { s.go t (.search_cache false) (.missed req) with proxy := p' }
  | send (response) (h : s.point t = .hit response) :
      DoitStep conn s t .send (s.go t .send (.closing false))
  | connect (req server_fd) (h : s.point t = .missed req) (hfree : server_fd ≠ (conn t).fd) :
      DoitStep conn s t (.open_clientfd (some server_fd))
        (s.go t (.open_clientfd (some server_fd)) (.connected req server_fd))
  | connectFails (req) (h : s.point t = .missed req) :
      DoitStep conn s t (.open_clientfd none) (s.go t (.open_clientfd none) (.closing true))
  | write (ok req server_fd) (h : s.point t = .connected req server_fd) :
      DoitStep conn s t (.write ok)
        (s.go t (.write ok) (if ok then .written req server_fd else .closing true))
  | relay (req server_fd origin response size sent) (h : s.point t = .written req server_fd)
      (hrelay : Converges (fun fuel => send_response_to_client fuel origin) (response, size, sent)) :
      DoitStep conn s t (.relay origin)
        (s.go t (.relay origin) (.relayed req server_fd response size))
  | store (req server_fd response size elem p') (h : s.point t = .relayed req server_fd response size)
      (hstore : if size ≠ 0 then Converges (fun fuel =>
        insertSection fuel s.proxy ((conn t).uri req) response size elem) p' else p' = s.proxy) :
      DoitStep conn s t (.store elem)
        { s.go t (.store elem) (.stored server_fd) with proxy := p' }
  | closeServer (server_fd) (h : s.point t = .stored server_fd) :
      DoitStep conn s t (.close server_fd) (s.go t (.close server_fd) (.closing false))
  | close (early) (h : s.point t = .closing early) :
      DoitStep conn s t (.close (conn t).fd)
        (s.go t (.close (conn t).fd) (if early then .returned else .closed))
  | free (h : s.point t = .closed) :
      DoitStep conn s t (.free (conn t).argp) (s.go t (.free (conn t).argp) .returned)

/-- The threads on a fresh cache; the connection of each thread is given. -/
def doits (conn : T → Conn) : System (Host T) (T × Did) where
  init s := s = ⟨boot, fun _ => .start, fun _ => []⟩
  step s a s' := DoitStep conn s a.1 a.2 s'

/-! ### What a thread owes -/

/-- The thread has released all it got: each descriptor closed once, its cell freed once. -/
def Clean (c : Conn) (log : List Did) : Prop :=
  log.count (.close c.fd) = 1 ∧
  (∀ server_fd, .open_clientfd (some server_fd) ∈ log → log.count (.close server_fd) = 1) ∧
  log.count (.free c.argp) = 1

/-- A call whose outcome sends `doit` to an early return. -/
def Did.Fails : Did → Prop
  | .pthread_mutex_init false | .open_clientfd none | .write false => True
  | _ => False

/-- How often client descriptor, server descriptor and cell have been released. -/
structure Released (c : Conn) (log : List Did) (client server cell : ℕ) : Prop where
  client : log.count (.close c.fd) = client
  server : ∀ x, .open_clientfd (some x) ∈ log → x ≠ c.fd ∧ log.count (.close x) = server
  cell : log.count (.free c.argp) = cell

/-- The calls before a server is connected. -/
def Did.Early : Did → Prop
  | .read_request | .pthread_mutex_init true | .search_cache _ => True
  | _ => False

/-- What `doit` has released where it is, and whether a call has failed. -/
def Ledger (c : Conn) (log : List Did) : Point → Prop
  | .start | .parsed _ | .ready _ | .hit _ | .missed _ => ∀ d ∈ log, d.Early
  | .connected _ x | .written _ x | .relayed _ x _ _ | .stored x =>
    (∀ d ∈ log, ¬ d.Fails) ∧ Released c log 0 0 0 ∧ ∀ y, .open_clientfd (some y) ∈ log ↔ y = x
  | .closing false => (∀ d ∈ log, ¬ d.Fails) ∧ Released c log 0 1 0
  | .closing true => (∃ d ∈ log, d.Fails) ∧ Released c log 0 0 0
  | .closed => (∀ d ∈ log, ¬ d.Fails) ∧ Released c log 1 1 0
  | .returned => (∀ d ∈ log, ¬ d.Fails) ∧ Released c log 1 1 1 ∨
    (∃ d ∈ log, d.Fails) ∧ Released c log 1 0 0

section Ledger
variable {c : Conn} {log : List Did} {d : Did} {client server cell : ℕ}

theorem Did.Early.not_fails (h : d.Early) : ¬ d.Fails := by
  cases d with
  | pthread_mutex_init ok =>
    cases ok with
    | true => exact id
    | false => exact h.elim
  | read_request | search_cache => exact id
  | _ => exact h.elim

theorem not_mem_of_early (hlog : ∀ d ∈ log, d.Early) (hd : ¬ d.Early) : d ∉ log :=
  fun hmem => hd (hlog d hmem)

theorem released_early (server : ℕ) (hlog : ∀ d ∈ log, d.Early) : Released c log 0 server 0 where
  client := List.count_eq_zero.mpr (not_mem_of_early hlog id)
  server _ hx := absurd hx (not_mem_of_early hlog id)
  cell := List.count_eq_zero.mpr (not_mem_of_early hlog id)

/-- A call that neither releases nor opens anything. -/
theorem Released.keep (h : Released c log client server cell) (hclose : ∀ x, d ≠ .close x)
    (hopen : ∀ x, d ≠ .open_clientfd (some x)) (hfree : ∀ x, d ≠ .free x) :
    Released c (d :: log) client server cell where
  client := by rw [List.count_cons_of_ne (hclose _)]; exact h.client
  server x hx := by
    rw [List.count_cons_of_ne (hclose _)]
    exact h.server x ((List.mem_cons.mp hx).resolve_left (hopen x).symm)
  cell := by rw [List.count_cons_of_ne (hfree _)]; exact h.cell

theorem not_fails_cons (h : ∀ d ∈ log, ¬ d.Fails) (hd : ¬ d.Fails) : ∀ d' ∈ d :: log, ¬ d'.Fails := by
  rintro d' hd'
  rcases List.mem_cons.mp hd' with rfl | hd'
  · exact hd
  · exact h d' hd'

theorem fails_cons (h : ∃ d ∈ log, d.Fails) : ∃ d' ∈ d :: log, d'.Fails := by
  obtain ⟨d', hd', hf⟩ := h
  exact ⟨d', List.mem_cons_of_mem d hd', hf⟩

/-- The client's descriptor is closed. -/
theorem Released.close (h : Released c log 0 server cell) :
    Released c (.close c.fd :: log) 1 server cell where
  client := by rw [List.count_cons_self, h.client]
  server x hx := by
    obtain ⟨hne, hx⟩ := h.server x ((List.mem_cons.mp hx).resolve_left nofun)
    exact ⟨hne, (List.count_cons_of_ne (by simpa using hne.symm)).trans hx⟩
  cell := (List.count_cons_of_ne (by simp)).trans h.cell

/-- The cell is freed. -/
theorem Released.free (h : Released c log client server 0) :
    Released c (.free c.argp :: log) client server 1 where
  client := (List.count_cons_of_ne (by simp)).trans h.client
  server x hx := by
    obtain ⟨hne, hx⟩ := h.server x ((List.mem_cons.mp hx).resolve_left nofun)
    exact ⟨hne, (List.count_cons_of_ne (by simp)).trans hx⟩
  cell := by rw [List.count_cons_self, h.cell]

/-- The server's descriptor is opened: the kernel gives out one that is not in use. -/
theorem released_open (hlog : ∀ d ∈ log, d.Early) {x : ℕ} (hne : x ≠ c.fd) :
    (∀ y, .open_clientfd (some y) ∈ Did.open_clientfd (some x) :: log ↔ y = x) ∧
      Released c (.open_clientfd (some x) :: log) 0 0 0 := by
  have honly : ∀ y, .open_clientfd (some y) ∈ Did.open_clientfd (some x) :: log ↔ y = x := by
    intro y
    constructor
    · intro hy
      rcases List.mem_cons.mp hy with heq | hy
      · cases heq
        rfl
      · exact (hlog _ hy).elim
    · rintro rfl
      exact List.mem_cons_self
  refine ⟨honly, ?_, fun y hy => ?_, ?_⟩
  · exact (List.count_cons_of_ne (by simp)).trans (released_early 0 hlog).client
  · obtain rfl := (honly y).mp hy
    exact ⟨hne, (List.count_cons_of_ne (by simp)).trans
      (List.count_eq_zero.mpr (not_mem_of_early hlog id))⟩
  · exact (List.count_cons_of_ne (by simp)).trans (released_early 0 hlog).cell

/-- The server's descriptor is closed; it is the only one that was opened. -/
theorem Released.closeServer {x : ℕ} (h : Released c log 0 0 0)
    (honly : ∀ y, .open_clientfd (some y) ∈ log ↔ y = x) :
    Released c (.close x :: log) 0 1 0 := by
  obtain ⟨hne, hzero⟩ := h.server x ((honly x).mpr rfl)
  refine ⟨?_, fun y hy => ?_, (List.count_cons_of_ne (by simp)).trans h.cell⟩
  · exact (List.count_cons_of_ne (by simpa using hne)).trans h.client
  · obtain rfl := (honly y).mp ((List.mem_cons.mp hy).resolve_left nofun)
    exact ⟨hne, by rw [List.count_cons_self, hzero]⟩

theorem opened_cons {x : ℕ} (honly : ∀ y, .open_clientfd (some y) ∈ log ↔ y = x)
    (hopen : ∀ y, d ≠ .open_clientfd (some y)) :
    ∀ y, .open_clientfd (some y) ∈ d :: log ↔ y = x := by
  intro y
  rw [List.mem_cons, or_iff_right (hopen y).symm, honly]

/-- What has been released when the thread returns tells whether a call failed. -/
theorem Ledger.returned (h : Ledger c log .returned) : Clean c log ↔ ∀ d ∈ log, ¬ d.Fails := by
  rcases h with ⟨hok, hrel⟩ | ⟨⟨d, hd, hf⟩, hrel⟩
  · exact iff_of_true ⟨hrel.client, fun x hx => (hrel.server x hx).2, hrel.cell⟩ hok
  · refine iff_of_false ?_ fun hok => hok d hd hf
    rintro ⟨-, -, hcell⟩
    cases hrel.cell.symm.trans hcell

end Ledger

/-! ### Every run -/

section Run
variable {conn : T → Conn} {s s' : Host T} {t t' : T} {d : Did} {c : Point}

@[simp] theorem Host.go_point : (s.go t d c).point t = c := Function.update_self ..

@[simp] theorem Host.go_log : (s.go t d c).log t = d :: s.log t := Function.update_self ..

theorem DoitStep.other (h : DoitStep conn s t d s') (hne : t' ≠ t) :
    s'.point t' = s.point t' ∧ s'.log t' = s.log t' := by
  cases h with
  | _ => exact ⟨Function.update_of_ne hne .., Function.update_of_ne hne ..⟩

theorem ledger_step (h : DoitStep conn s t d s')
    (hl : Ledger (conn t) (s.log t) (s.point t)) : Ledger (conn t) (s'.log t) (s'.point t) := by
  cases h with
  | parse req acts h =>
    rw [h] at hl
    rw [Host.go_log, Host.go_point]
    exact List.forall_mem_cons.mpr ⟨trivial, hl⟩
  | init ok req h =>
    rw [h] at hl
    rw [Host.go_log, Host.go_point]
    cases ok with
    | true => exact List.forall_mem_cons.mpr ⟨trivial, hl⟩
    | false =>
      exact ⟨⟨_, List.mem_cons_self, trivial⟩, (released_early _ hl).keep nofun nofun nofun⟩
  | hit req p' response h =>
    rw [h] at hl
    simp only [Host.go_log, Host.go_point]
    exact List.forall_mem_cons.mpr ⟨trivial, hl⟩
  | miss req p' h =>
    rw [h] at hl
    simp only [Host.go_log, Host.go_point]
    exact List.forall_mem_cons.mpr ⟨trivial, hl⟩
  | send response h =>
    rw [h] at hl
    rw [Host.go_log, Host.go_point]
    exact ⟨not_fails_cons (fun d hd => (hl d hd).not_fails) id,
      (released_early _ hl).keep nofun nofun nofun⟩
  | connect req x h hfree =>
    rw [h] at hl
    rw [Host.go_log, Host.go_point]
    obtain ⟨honly, hrel⟩ := released_open hl hfree
    exact ⟨not_fails_cons (fun d hd => (hl d hd).not_fails) id, hrel, honly⟩
  | connectFails req h =>
    rw [h] at hl
    rw [Host.go_log, Host.go_point]
    exact ⟨⟨_, List.mem_cons_self, trivial⟩, (released_early _ hl).keep nofun nofun nofun⟩
  | write ok req x h =>
    rw [h] at hl
    rw [Host.go_log, Host.go_point]
    obtain ⟨hok, hrel, honly⟩ := hl
    cases ok with
    | true =>
      exact ⟨not_fails_cons hok id, hrel.keep nofun nofun nofun, opened_cons honly nofun⟩
    | false => exact ⟨⟨_, List.mem_cons_self, trivial⟩, hrel.keep nofun nofun nofun⟩
  | relay req x origin response size sent h =>
    rw [h] at hl
    rw [Host.go_log, Host.go_point]
    obtain ⟨hok, hrel, honly⟩ := hl
    exact ⟨not_fails_cons hok id, hrel.keep nofun nofun nofun, opened_cons honly nofun⟩
  | store req x response size elem p' h =>
    rw [h] at hl
    simp only [Host.go_log, Host.go_point]
    obtain ⟨hok, hrel, honly⟩ := hl
    exact ⟨not_fails_cons hok id, hrel.keep nofun nofun nofun, opened_cons honly nofun⟩
  | closeServer x h =>
    rw [h] at hl
    rw [Host.go_log, Host.go_point]
    obtain ⟨hok, hrel, honly⟩ := hl
    exact ⟨not_fails_cons hok id, hrel.closeServer honly⟩
  | close early h =>
    rw [h] at hl
    rw [Host.go_log, Host.go_point]
    cases early with
    | true => exact Or.inr ⟨fails_cons hl.1, hl.2.close⟩
    | false => exact ⟨not_fails_cons hl.1 id, hl.2.close⟩
  | free h =>
    rw [h] at hl
    rw [Host.go_log, Host.go_point]
    exact Or.inl ⟨not_fails_cons hl.1 id, hl.2.free⟩

theorem ledger_reachable (h : (doits conn).Reachable s) (t : T) :
    Ledger (conn t) (s.log t) (s.point t) := by
  refine System.reachable_of_step (P := fun s => ∀ t, Ledger (conn t) (s.log t) (s.point t)) ?_ ?_ h t
  · rintro s rfl t
    exact nofun
  · rintro s ⟨t, d⟩ s' hl hstep t'
    rcases eq_or_ne t' t with rfl | hne
    · exact ledger_step hstep (hl t')
    · obtain ⟨hpoint, hlog⟩ := DoitStep.other hstep hne
      rw [hpoint, hlog]
      exact hl t'

theorem log_step (h : DoitStep conn s t d s') : s'.log t = d :: s.log t := by
  cases h with
  | _ => exact Function.update_self ..

/-- No call of the run fails, so none is in a log. -/
theorem no_failure_reachable (h : ((doits conn).restrict fun _ a => ¬ a.2.Fails).Reachable s)
    (t : T) : ∀ d ∈ s.log t, ¬ d.Fails := by
  refine System.reachable_of_step (P := fun s => ∀ t, ∀ d ∈ s.log t, ¬ d.Fails) ?_ ?_ h t
  · rintro s rfl t
    exact nofun
  · rintro s ⟨t, d⟩ s' hlog ⟨hok, hstep⟩ t'
    rcases eq_or_ne t' t with rfl | hne
    · rw [log_step hstep]
      exact not_fails_cons (hlog t') hok
    · rw [(DoitStep.other hstep hne).2]
      exact hlog t'

/-- In a run in which no call fails, every thread that has returned is clean; and in any run a thread
    that has returned is clean iff none of its own calls has failed. -/
theorem clean_iff_no_failure (conn : T → Conn) :
    (∀ {s t}, ((doits conn).restrict fun _ a => ¬ a.2.Fails).Reachable s → s.point t = .returned →
      Clean (conn t) (s.log t)) ∧
    ∀ {s t}, (doits conn).Reachable s → s.point t = .returned →
      (Clean (conn t) (s.log t) ↔ ∀ d ∈ s.log t, ¬ d.Fails) := by
  have hiff : ∀ {s t}, (doits conn).Reachable s → s.point t = .returned →
      (Clean (conn t) (s.log t) ↔ ∀ d ∈ s.log t, ¬ d.Fails) := by
    intro s t h hret
    have hl := ledger_reachable h t
    rw [hret] at hl
    exact hl.returned
  exact ⟨fun {s t} h hret => (hiff h.of_restrict hret).mpr (no_failure_reachable h t), hiff⟩

end Run

end Threads

/-! ### A server that cannot be reached -/

/-- A client that sends nothing. -/
def mute : Conn := ⟨4, 1, Stack.blank, []⟩

def idle : Host Unit := ⟨boot, fun _ => .start, fun _ => []⟩

/-- `doit` up to the failed `open_clientfd`. -/
def unreached : Host Unit :=
  (((idle.go () .read_request (.parsed .none)).go () (.pthread_mutex_init true) (.ready .none)).go ()
    (.search_cache false) (.missed .none)).go () (.open_clientfd none) (.closing true)

/-- The thread after its early return. -/
def gaveUp : Host Unit := unreached.go () (.close 4) .returned

theorem gaveUp_reachable : (doits fun _ : Unit => mute).Reachable gaveUp := by
  have hread : ∀ fuel, read_request fuel Stack.blank [] = .ok (.none, badRequest) := fun _ => rfl
  have hmiss : (Section.lookup [] none).Step boot boot := miss_step cacheOk_init nofun
  have h₁ := System.reachable_init (S := doits fun _ : Unit => mute) (s := idle) rfl
  have h₂ := h₁.step (a := ((), _)) (.parse .none badRequest rfl ⟨0, fun fuel _ => hread fuel⟩)
  have h₃ := h₂.step (a := ((), _)) (.init true .none rfl)
  have h₄ := h₃.step (a := ((), _)) (.miss .none boot rfl hmiss)
  have h₅ := h₄.step (a := ((), _)) (.connectFails .none rfl)
  exact h₅.step (a := ((), _)) (.close true rfl)

/-- The thread has returned without freeing its cell. -/
theorem cell_leaks : ¬ ∀ {s : Host Unit} {t}, (doits fun _ => mute).Reachable s →
    s.point t = .returned → Clean mute (s.log t) := by
  intro hclean
  have hcell := (hclean gaveUp_reachable (t := ()) rfl).2.2
  revert hcell
  decide

/-- A server is reached and sends nothing, and the thread returns at the end. -/
theorem served_reachable : ∃ s : Host Unit,
    ((doits fun _ : Unit => mute).restrict fun _ a => ¬ a.2.Fails).Reachable s ∧
      s.point () = .returned := by
  have hread : ∀ fuel, read_request fuel Stack.blank [] = .ok (.none, badRequest) := fun _ => rfl
  have hmiss : (Section.lookup [] none).Step boot boot := miss_step cacheOk_init nofun
  have hend : rio_readnb MAX_OBJECT_SIZE (rio_readinitb []) = (some [], rio_readinitb []) := by
    rw [MAX_OBJECT_SIZE, rio_readnb]
    rfl
  have hrelay : Converges (fun fuel => send_response_to_client fuel []) ([], 0, []) :=
    Converges.const.succ fun _ => by rw [send_response_to_client, relayLoop, hend]
  have h₁ := System.reachable_init
    (S := (doits fun _ : Unit => mute).restrict fun _ a => ¬ a.2.Fails) (s := idle) rfl
  have h₂ := h₁.step (a := ((), _)) ⟨id, .parse .none badRequest rfl ⟨0, fun fuel _ => hread fuel⟩⟩
  have h₃ := h₂.step (a := ((), _)) ⟨id, .init true .none rfl⟩
  have h₄ := h₃.step (a := ((), _)) ⟨id, .miss .none boot rfl hmiss⟩
  have h₅ := h₄.step (a := ((), _)) ⟨id, .connect .none 5 rfl (by decide)⟩
  have h₆ := h₅.step (a := ((), _)) ⟨id, .write true .none 5 rfl⟩
  have h₇ := h₆.step (a := ((), _)) ⟨id, .relay .none 5 [] [] 0 [] rfl hrelay⟩
  have h₈ := h₇.step (a := ((), _)) ⟨id, .store .none 5 [] 0 0 boot rfl rfl⟩
  have h₉ := h₈.step (a := ((), _)) ⟨id, .closeServer 5 rfl⟩
  have h₁₀ := h₉.step (a := ((), _)) ⟨id, .close false rfl⟩
  exact ⟨_, h₁₀.step (a := ((), _)) ⟨id, .free rfl⟩, rfl⟩

theorem clean_iff_no_failure_gaveUp : ¬ Clean mute (gaveUp.log ()) ∧
    ∃ s : Host Unit, s.point () = .returned ∧ Clean mute (s.log ()) := by
  refine ⟨?_, ?_⟩
  · rw [(clean_iff_no_failure fun _ => mute).2 gaveUp_reachable rfl]
    intro hok
    exact hok (.open_clientfd none) (by decide) trivial
  · obtain ⟨s, hreach, hret⟩ := served_reachable
    exact ⟨s, hret, (clean_iff_no_failure fun _ => mute).1 hreach hret⟩

end Labs.Http
