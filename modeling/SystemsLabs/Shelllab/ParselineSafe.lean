import SystemsLabs.Schemes.Cuts
import SystemsLabs.Schemes.Transition
import SystemsLabs.Shelllab.ParselineScan

/-! @lab shelllab | file:tsh_helper.c (parseline) | structure:in-place tokenizer | scheme:cuts |
    main result:parseline_safe

    On every line the loop ends, and no access is outside the buffer or the argument list: the NUL
    at `endbuf` is never overwritten and bounds each search from a position before it. What is
    recorded starts at or after that position, and the loop goes on behind the NUL that ends it, so
    that the tokens returned share no byte, whichever quotes and operators stand next to each other. -/

namespace Labs.Shell
open Schemes

/-- The fields of a token structure that point into its buffer. -/
inductive Slot where
  | argv (k : Fin MAXARGS)
  | infile
  | outfile
  deriving DecidableEq

/-- Arguments count up to `argc`; what `argv` holds from there on is anything. -/
def CmdlineTokens.pointer (t : CmdlineTokens) : Slot → Option ℕ
  | .argv k => if k.val < t.argc then t.argv k else none
  | .infile => t.infile
  | .outfile => t.outfile

/-- What a caller may rely on. -/
structure CmdlineTokens.Safe (t : CmdlineTokens) : Prop where
  null : ∃ k : Fin MAXARGS, k.val = t.argc ∧ t.argv k = none
  argv : ∀ k : Fin MAXARGS, k.val < t.argc → (t.argv k).isSome
  inside : ∀ σ q, t.pointer σ = some q →
    ∃ s, t._buf.string q = .ok s ∧ q + s.length < MAXLINE_TSH
  apart : ∀ σ τ p q, σ ≠ τ → t.pointer σ = some p → t.pointer τ = some q → t._buf.Apart p q

/-! ### The loop as a system -/

/-- What a call does before the loop: `endbuf`, and the variables of the loop. -/
def parselineStart (cmdline : Bytes) (token : CmdlineTokens) : Except Stop (ℕ × Parse) := do
  let _buf ← (Buffer.strncpy MAXLINE_TSH cmdline).store (MAXLINE_TSH - 1) 0
  let endbuf ← _buf.strlen 0
  let token := { token with _buf, argc := 0, infile := none, outfile := none }
  return (endbuf, ⟨0, .ST_NORMAL, token⟩)

/-- The loop of a call, each step an evaluation of the condition and the round after it. -/
def loopSystem (cmdline : Bytes) (token : CmdlineTokens) : System (ℕ × Round) Unit where
  init s := ∃ p, parselineStart cmdline token = .ok (s.1, p) ∧ s.2 = .again p
  step s _ s' := ∃ p, s.2 = .again p ∧ s'.1 = s.1 ∧
    if p.buf < s.1 then round s.1 p = .ok s'.2 else s'.2 = .stop (.left p)

def Scanned.token : Scanned → CmdlineTokens
  | .left p => p.token
  | .failed token _ => token

def Round.token : Round → CmdlineTokens
  | .again p => p.token
  | .stop r => r.token

variable {cmdline : Bytes} {token t : CmdlineTokens} {p p' : Parse} {r : Scanned}
  {endbuf bound buf next : ℕ} {verbose : Bool}

theorem parseline_eq (fuel : ℕ) : parseline verbose (some cmdline) token fuel =
    parselineStart cmdline token >>= fun s => scanLoop s.1 fuel s.2 >>= Scanned.result verbose := by
  rw [parseline, parselineStart]
  cases (Buffer.strncpy MAXLINE_TSH cmdline).store (MAXLINE_TSH - 1) 0 with
  | error e => rfl
  | ok b =>
    simp only [ok_bind]
    cases b.strlen 0 with
    | error e => rfl
    | ok endbuf => rfl

/-- A loop that ends has run the system to its result. -/
theorem scanLoop_run : ∀ {fuel : ℕ} {p : Parse}, scanLoop endbuf fuel p = .ok r →
    ∃ as, (loopSystem cmdline token).Run (endbuf, .again p) as (endbuf, .stop r)
  | 0, _, h => by cases h
  | fuel + 1, p, h => by
      rw [scanLoop] at h
      split_ifs at h with hlt
      · obtain ⟨next, hround, hrest⟩ := bind_ok h
        have hstep : (loopSystem cmdline token).step (endbuf, .again p) () (endbuf, next) :=
          ⟨p, rfl, rfl, by rw [if_pos hlt]; exact hround⟩
        cases next with
        | again p' =>
          obtain ⟨as, hrun⟩ := scanLoop_run hrest
          exact ⟨() :: as, .cons hstep hrun⟩
        | stop r' =>
          cases hrest
          exact ⟨[()], .single hstep⟩
      · cases h
        exact ⟨[()], .single ⟨p, rfl, rfl, by rw [if_neg hlt]⟩⟩

/-! ### What each step keeps -/

/-- The tokens recorded lie before `bound`, apart from each other. -/
structure CmdlineTokens.Tidy (t : CmdlineTokens) (bound : ℕ) : Prop where
  argc : t.argc ≤ MAXARGS - 1
  argv : ∀ k : Fin MAXARGS, k.val < t.argc → (t.argv k).isSome
  cuts : t._buf.Cuts bound t.pointer

/-- At the head of the loop. -/
structure Scanning (endbuf : ℕ) (p : Parse) : Prop where
  fin : p.token._buf.load endbuf = .ok 0
  room : p.token.argc < MAXARGS - 1
  tidy : p.token.Tidy p.buf

/-- After a round that got at least to `reach`. -/
def Round.Good (endbuf reach : ℕ) : Round → Prop
  | .again p => Scanning endbuf p ∧ reach ≤ p.buf
  | .stop r => ∃ bound, r.token.Tidy bound

theorem Round.Good.mono {reach reach' : ℕ} {r : Round} (h : r.Good endbuf reach)
    (hle : reach' ≤ reach) : r.Good endbuf reach' := by
  cases r with
  | again p => exact ⟨h.1, hle.trans h.2⟩
  | stop r => exact h

variable {b : Buffer MAXLINE_TSH}

theorem pointer_argv (t : CmdlineTokens) (buf : ℕ) (h : t.argc < MAXARGS) :
    ({ t with argv := Function.update t.argv ⟨t.argc, h⟩ (some buf), argc := t.argc + 1 } :
        CmdlineTokens).pointer = Function.update t.pointer (.argv ⟨t.argc, h⟩) (some buf) := by
  funext σ
  cases σ with
  | argv k =>
    rcases eq_or_ne k ⟨t.argc, h⟩ with rfl | hne
    · simp [CmdlineTokens.pointer]
    · have hslot : Slot.argv k ≠ .argv ⟨t.argc, h⟩ := fun heq => hne (Slot.argv.inj heq)
      have hlt : k.val < t.argc + 1 ↔ k.val < t.argc := by
        have := Fin.val_ne_of_ne hne
        simp only at this
        omega
      rw [Function.update_of_ne hslot]
      simp only [CmdlineTokens.pointer, hlt, Function.update_of_ne hne]
  | infile => rfl
  | outfile => rfl

theorem pointer_infile (t : CmdlineTokens) (buf : ℕ) :
    ({ t with infile := some buf } : CmdlineTokens).pointer =
      Function.update t.pointer .infile (some buf) := by
  funext σ
  cases σ <;> rfl

theorem pointer_outfile (t : CmdlineTokens) (buf : ℕ) :
    ({ t with outfile := some buf } : CmdlineTokens).pointer =
      Function.update t.pointer .outfile (some buf) := by
  funext σ
  cases σ <;> rfl

/-! ### One round -/

/-- The `switch`, for a token that starts at `buf` and whose NUL is at `next`. -/
theorem Scanning.record (h : Scanning endbuf p) (hbuf : p.buf ≤ buf) (hnext : buf ≤ next)
    (hnul : b.load next = .ok 0)
    (hkept : ∀ e, p.token._buf.load e = .ok 0 → b.load e = .ok 0) :
    ∃ p', Parse.record { p with token := { p.token with _buf := b } } buf = .ok p' ∧
      p'.token._buf = b ∧ p'.token.Tidy (next + 1) := by
  have hcuts := fun σ => h.tidy.cuts.add σ hbuf hnext hnul hkept
  have hroom := h.room
  rw [Parse.record]
  cases hmode : p.parsing_state with
  | ST_NORMAL =>
    have hk : p.token.argc < MAXARGS := by omega
    simp only [CmdlineTokens.setArgv, dif_pos hk, ok_bind]
    refine ⟨_, rfl, rfl, by simp only; omega, fun k hlt => ?_, ?_⟩
    · rcases eq_or_ne k ⟨p.token.argc, hk⟩ with rfl | hne
      · simp
      · have hval := Fin.val_ne_of_ne hne
        simp only at hval hlt
        simp only [Function.update_of_ne hne]
        exact h.tidy.argv k (by omega)
    · have hptr := pointer_argv p.token buf hk
      exact hptr ▸ hcuts (.argv ⟨p.token.argc, hk⟩)
  | ST_INFILE =>
    have hptr := pointer_infile p.token buf
    exact ⟨_, rfl, rfl, h.tidy.argc, h.tidy.argv, hptr ▸ hcuts .infile⟩
  | ST_OUTFILE =>
    have hptr := pointer_outfile p.token buf
    exact ⟨_, rfl, rfl, h.tidy.argc, h.tidy.argv, hptr ▸ hcuts .outfile⟩

theorem Scanning.terminate (h : Scanning endbuf p) (hbuf : p.buf ≤ buf) (hnext : buf ≤ next)
    (hend : next ≤ endbuf) : ∃ r, p.terminate buf next = .ok r ∧ r.Good endbuf (next + 1) := by
  have hlt : next < MAXLINE_TSH := Nat.lt_of_le_of_lt hend (Buffer.load_lt h.fin)
  obtain ⟨b, hstore, hnul, hkept⟩ := p.token._buf.store_nul hlt
  obtain ⟨p', hrecord, hb, htidy⟩ := h.record hbuf hnext hnul hkept
  rw [Parse.terminate, hstore, ok_bind, hrecord, ok_bind]
  split_ifs with hfull
  · exact ⟨_, rfl, next + 1, htidy⟩
  · exact ⟨_, rfl, ⟨hb ▸ hkept endbuf h.fin, Nat.not_le.mp hfull, htidy⟩, le_refl _⟩

/-- After the mark of a redirection. -/
theorem Scanning.skip (h : Scanning endbuf p) (hbuf : p.buf ≤ buf) (mode : ParseState) :
    (Round.again { p with buf := buf + 1, parsing_state := mode }).Good endbuf (p.buf + 1) :=
  ⟨⟨h.fin, h.room, h.tidy.argc, h.tidy.argv, h.tidy.cuts.mono (Nat.le_succ_of_le hbuf) fun _ _ => id⟩,
    Nat.succ_le_succ hbuf⟩

theorem Scanning.dispatch {c : UInt8} (h : Scanning endbuf p) (hbuf : p.buf ≤ buf)
    (hlt : buf < endbuf) : ∃ r, p.dispatch buf c = .ok r ∧ r.Good endbuf (p.buf + 1) := by
  have hfailed : ∀ message, (Round.stop (.failed p.token message)).Good endbuf (p.buf + 1) :=
    fun _ => ⟨p.buf, h.tidy⟩
  rw [Parse.dispatch]
  split_ifs with hless hin hgreater hout hquote
  · exact ⟨_, rfl, hfailed _⟩
  · exact ⟨_, rfl, h.skip hbuf _⟩
  · exact ⟨_, rfl, hfailed _⟩
  · exact ⟨_, rfl, h.skip hbuf _⟩
  · -- After an opening quote at most the NUL at `endbuf` is left, and `strchr` stops there.
    obtain ⟨next, hchr, hnext⟩ := Buffer.strchr_of_nul h.fin (p := buf + 1) hlt c
    simp only [hchr, ok_bind]
    cases next with
    | none =>
      obtain ⟨d, hd⟩ := p.token._buf.load_of_lt (hlt.trans (Buffer.load_lt h.fin))
      simp only [Nat.add_sub_cancel, hd, ok_bind]
      exact ⟨_, rfl, hfailed _⟩
    | some next =>
      obtain ⟨hle, hend⟩ := hnext next rfl
      obtain ⟨r, hterm, hgood⟩ := h.terminate (Nat.le_succ_of_le hbuf) hle hend
      exact ⟨r, hterm, hgood.mono (by omega)⟩
  · obtain ⟨k, hspan, hend⟩ := Buffer.strcspn_of_nul h.fin hlt.le delims
    rw [hspan, ok_bind]
    obtain ⟨r, hterm, hgood⟩ := h.terminate hbuf (Nat.le_add_right buf k) hend
    exact ⟨r, hterm, hgood.mono (by omega)⟩

/-- A round does not fault, and gets further. -/
theorem Scanning.round (h : Scanning endbuf p) (hlt : p.buf < endbuf) :
    ∃ r, round endbuf p = .ok r ∧ r.Good endbuf (p.buf + 1) := by
  obtain ⟨k, hspan, hle⟩ := Buffer.strspn_of_nul h.fin hlt.le delims
  rw [Shell.round, hspan, ok_bind]
  dsimp only
  split_ifs with hend
  · exact ⟨_, rfl, p.buf, h.tidy⟩
  · obtain ⟨c, hc⟩ := p.token._buf.load_of_lt
      ((Nat.not_le.mp hend).trans (Buffer.load_lt h.fin))
    rw [hc, ok_bind]
    exact h.dispatch (Nat.le_add_right _ k) (Nat.not_le.mp hend)

/-! ### The whole loop -/

theorem parselineStart_scanning (cmdline : Bytes) (token : CmdlineTokens) :
    ∃ endbuf p, parselineStart cmdline token = .ok (endbuf, p) ∧ Scanning endbuf p := by
  obtain ⟨b, hstore, hat⟩ := Buffer.strncpy_terminated (s := cmdline) (by decide : 0 < MAXLINE_TSH)
  have hlen : b.strlen 0 = .ok ((cstr cmdline).take (MAXLINE_TSH - 1)).length := hat.strlen
  have hnul := hat.nul
  rw [List.length_nil, Nat.zero_add] at hnul
  refine ⟨_, _, by rw [parselineStart, hstore, ok_bind, hlen, ok_bind]; rfl, hnul,
    Nat.zero_lt_succ _, Nat.zero_le _, fun _ hlt => absurd hlt (Nat.not_lt_zero _),
    (Buffer.Cuts.none b 0).mono (le_refl 0) fun σ q hq => ?_⟩
  cases σ <;> cases hq

/-- In every state of the loop. -/
theorem reachable_good {s : ℕ × Round} (h : (loopSystem cmdline token).Reachable s) :
    s.2.Good s.1 0 := by
  refine System.reachable_of_step (P := fun s => s.2.Good s.1 0) ?_ ?_ h
  · rintro ⟨endbuf, _⟩ ⟨p, hstart, rfl⟩
    obtain ⟨endbuf', p', hstart', hscan⟩ := parselineStart_scanning cmdline token
    cases hstart.symm.trans hstart'
    exact ⟨hscan, Nat.zero_le _⟩
  · rintro ⟨endbuf, _⟩ _ ⟨_, r⟩ hgood ⟨p, rfl, rfl, hstep⟩
    obtain ⟨hscan, -⟩ := hgood
    split_ifs at hstep with hlt
    · obtain ⟨r', hround, hgood⟩ := hscan.round hlt
      cases hround.symm.trans hstep
      exact hgood.mono (Nat.zero_le _)
    · cases hstep
      exact ⟨p.buf, hscan.tidy⟩

/-- The loop ends: every round gets further, and none past `endbuf` is made. -/
theorem Scanning.converges (n : ℕ) : ∀ {p : Parse}, endbuf - p.buf ≤ n → Scanning endbuf p →
    ∃ r, Converges (fun fuel => scanLoop endbuf fuel p) r := by
  induction n with
  | zero =>
    intro p hn _
    exact ⟨.left p, scanLoop_left (by omega)⟩
  | succ n ih =>
    intro p hn h
    rcases Nat.lt_or_ge p.buf endbuf with hlt | hge
    · obtain ⟨r, hround, hgood⟩ := h.round hlt
      cases r with
      | again p' =>
        obtain ⟨hscan, hreach⟩ := hgood
        obtain ⟨r, hr⟩ := ih (by omega) hscan
        exact ⟨r, scanLoop_again hlt hround hr⟩
      | stop r => exact ⟨r, scanLoop_stop hlt hround⟩
    · exact ⟨.left p, scanLoop_left hge⟩

/-- However far the loop has come, no access was outside. -/
theorem Scanning.inside (fuel : ℕ) :
    ∀ {p : Parse}, Scanning endbuf p → scanLoop endbuf fuel p ≠ .error .fault := by
  induction fuel with
  | zero =>
    intro p _ hfault
    cases hfault
  | succ fuel ih =>
    intro p h hfault
    rw [scanLoop] at hfault
    split_ifs at hfault with hlt
    obtain ⟨r, hround, hgood⟩ := h.round hlt
    rw [hround, ok_bind] at hfault
    cases r with
    | again p' => exact ih hgood.1 hfault
    | stop r => cases hfault

/-! ### What a call returns -/

theorem CmdlineTokens.Tidy.arg (h : t.Tidy bound) {k : ℕ} (hk : k < t.argc) :
    ∃ q c s, t.arg k = .ok q ∧ t._buf.load q = .ok c ∧ t._buf.string q = .ok s := by
  have hargc := h.argc
  have hlt : k < MAXARGS := by omega
  obtain ⟨q, hq⟩ := Option.isSome_iff_exists.mp (h.argv ⟨k, hlt⟩ hk)
  have hptr : t.pointer (.argv ⟨k, hlt⟩) = some q := by rw [CmdlineTokens.pointer, if_pos hk, hq]
  obtain ⟨s, hs⟩ := h.cuts.string hptr
  exact ⟨q, s.headD 0, s, by rw [CmdlineTokens.arg, dif_pos hlt, hq], Buffer.load_of_string hs, hs⟩

theorem CmdlineTokens.Tidy.safe (h : t.Tidy bound) {k : Fin MAXARGS} (hk : k.val = t.argc)
    (hnull : t.argv k = none) : t.Safe := by
  refine ⟨⟨k, hk, hnull⟩, h.argv, fun σ q hq => ?_, fun _ _ _ _ hne hp hq =>
    h.cuts.disjoint hne hp hq⟩
  obtain ⟨s, hs⟩ := h.cuts.string hq
  exact ⟨s, hs, Buffer.string_inside hs⟩

/-- `argv` ended with `NULL` at `k`; the arguments from there on are dropped. -/
theorem CmdlineTokens.Tidy.close (h : t.Tidy bound) {k : ℕ} (hk : k ≤ t.argc) :
    ∃ t', CmdlineTokens.setArgv { t with argc := k } k none = .ok t' ∧ t'.Tidy bound ∧ t'.Safe := by
  have hargc : k ≤ MAXARGS - 1 := hk.trans h.argc
  have hlt : k < MAXARGS := Nat.lt_of_le_of_lt hargc (by decide)
  have hkeep : ∀ j : Fin MAXARGS, j.val < k → Function.update t.argv ⟨k, hlt⟩ none j = t.argv j :=
    fun j hj => Function.update_of_ne (fun heq => by simp [heq] at hj) _ _
  have htidy : ({ t with argc := k, argv := Function.update t.argv ⟨k, hlt⟩ none } :
      CmdlineTokens).Tidy bound := by
    refine ⟨hargc, fun j hj => ?_, h.cuts.mono (le_refl bound) fun σ q hq => ?_⟩
    · have hsome := h.argv j (hj.trans_le hk)
      rwa [← hkeep j hj] at hsome
    · cases σ with
      | argv j =>
        rw [CmdlineTokens.pointer] at hq ⊢
        split_ifs at hq with hj
        rw [if_pos (hj.trans_le hk), ← hkeep j hj]
        exact hq
      | infile => exact hq
      | outfile => exact hq
  exact ⟨_, dif_pos hlt, htidy, htidy.safe rfl (Function.update_self ..)⟩

/-- After the loop. -/
theorem CmdlineTokens.Tidy.finish (h : p.token.Tidy bound) :
    ∃ r, p.finish = .ok r ∧ r.token.argc ≤ MAXARGS - 1 ∧
      (r.ret = .PARSELINE_FG ∨ r.ret = .PARSELINE_BG → r.token.Safe) := by
  rw [Parse.finish]
  split_ifs with hmode
  · exact ⟨_, rfl, h.argc, by simp⟩
  obtain ⟨t, hset, ht, hsafe⟩ := h.close (le_refl _)
  have hset' : p.token.setArgv p.token.argc none = .ok t := hset
  rw [hset', ok_bind]
  by_cases hzero : t.argc = 0
  · rw [if_pos hzero]
    exact ⟨_, rfl, ht.argc, by simp⟩
  obtain ⟨q₀, c₀, command, hq₀, -, hcommand⟩ := ht.arg (Nat.pos_of_ne_zero hzero)
  rw [if_neg hzero, hq₀, ok_bind, hcommand, ok_bind]
  have hb : ({ t with builtin := builtin_of command } : CmdlineTokens).Tidy bound := { ht with }
  obtain ⟨q, c, s, hq, hc, -⟩ := hb.arg (Nat.sub_lt (Nat.pos_of_ne_zero hzero) Nat.one_pos)
  simp only [hq, hc, ok_bind]
  split_ifs with hbg
  · -- The last argument is dropped.
    obtain ⟨t', hset, ht', hsafe'⟩ := hb.close (Nat.sub_le t.argc 1)
    rw [hset, ok_bind]
    exact ⟨_, rfl, ht'.argc, fun _ => hsafe'⟩
  · exact ⟨_, rfl, ht.argc, fun _ => { hsafe with }⟩

theorem Scanned.result_safe (verbose : Bool) (h : r.token.Tidy bound) :
    ∃ r', r.result verbose = .ok r' ∧ r'.token.argc ≤ MAXARGS - 1 ∧
      (r'.ret = .PARSELINE_FG ∨ r'.ret = .PARSELINE_BG → r'.token.Safe) := by
  cases r with
  | left p => exact h.finish
  | failed t message => exact ⟨_, rfl, h.argc, by simp⟩

/-- Every call returns, whatever the line is, and never with an access outside the buffer or `argv`;
    `argc` stays within bounds at every point of the loop, and the tokens of a command are strings
    apart from each other in the buffer. -/
theorem parseline_safe (verbose : Bool) (cmdline : Bytes) (token : CmdlineTokens) :
    (∀ s, (loopSystem cmdline token).Reachable s → s.2.token.argc ≤ MAXARGS - 1) ∧
      (∀ fuel, parseline verbose (some cmdline) token fuel ≠ .error .fault) ∧
      ∃ r, Converges (fun fuel => parseline verbose (some cmdline) token fuel) r ∧
        r.token.argc ≤ MAXARGS - 1 ∧
        (r.ret = .PARSELINE_FG ∨ r.ret = .PARSELINE_BG → r.token.Safe) := by
  obtain ⟨endbuf, p, hstart, hscan⟩ := parselineStart_scanning cmdline token
  have hinit : (loopSystem cmdline token).init (endbuf, .again p) := ⟨p, hstart, rfl⟩
  have hcall : ∀ fuel, parseline verbose (some cmdline) token fuel =
      scanLoop endbuf fuel p >>= Scanned.result verbose := fun fuel => by
    rw [parseline_eq, hstart, ok_bind]
  have htidy : ∀ {fuel r}, scanLoop endbuf fuel p = .ok r → ∃ bound, r.token.Tidy bound := by
    intro fuel r hloop
    obtain ⟨as, hrun⟩ := scanLoop_run hloop
    exact reachable_good ((System.reachable_init hinit).run hrun)
  refine ⟨?_, fun fuel hfault => ?_, ?_⟩
  · rintro ⟨endbuf, r⟩ hs
    have hgood := reachable_good hs
    cases r with
    | again p => exact hgood.1.tidy.argc
    | stop r =>
      obtain ⟨bound, htidy⟩ := hgood
      exact htidy.argc
  · rw [hcall] at hfault
    cases hloop : scanLoop endbuf fuel p with
    | error e =>
      rw [hloop] at hfault
      cases hfault
      exact hscan.inside fuel hloop
    | ok r =>
      obtain ⟨bound, h⟩ := htidy hloop
      obtain ⟨r', hr', -⟩ := Scanned.result_safe verbose h
      rw [hloop, ok_bind, hr'] at hfault
      cases hfault
  · obtain ⟨r, N, hN⟩ := hscan.converges _ (le_refl _)
    obtain ⟨bound, h⟩ := htidy (hN N (le_refl N))
    obtain ⟨r', hr', hpost⟩ := Scanned.result_safe verbose h
    refine ⟨r', ⟨N, fun fuel hfuel => ?_⟩, hpost⟩
    have hloop : scanLoop endbuf fuel p = .ok r := hN fuel hfuel
    dsimp only
    rw [hcall, hloop, ok_bind, hr']

end Labs.Shell
