import SystemsLabs.Cachelab.CsimLru
import SystemsLabs.Schemes.Loop
import SystemsLabs.Schemes.Scanf

/-! @lab cachelab | file:csim.c (main), cachelab.c (printSummary), test-trans.c (eval_perf) |
    structure:trace text to summary text | main result:the summary reads back as the LRU cache's numbers

    `main` scans a trace line by line, simulates it and prints a summary, once to standard output and
    once to a file. A file of this form is what `eval_perf` reads; there the reference simulator has
    written it, which comes as a binary, so that `scanResults` of the file of `main` says what the file
    tells a reader and nothing about a run of `eval_perf`. The options come parsed, and the allocations
    succeed.

        trace text ──fscanf──▶ run ──printSummary──▶ .csim_results ──fscanf──▶ numbers  -/

namespace Labs.Csim
open Schemes
variable {s E b : ℕ} {st : Sim} {text rest : List UInt8}

/-! ### The code -/

/-- What is left behind the address after `,%*d ` in the format. -/
def skipSize : List UInt8 → List UInt8
  | [] => []
  | c :: rest =>
    if c = 44 then
      let t := skipSign (rest.dropWhile isspace)
      if t.takeWhile isdigit = [] then t else (t.dropWhile isdigit).dropWhile isspace
    else c :: rest

/-- `fscanf(traceFile, "%c %lx,%*d ", &instr, &addr)` when it returns 2. -/
def scanLine : List UInt8 → Option (UInt8 × BitVec 64 × List UInt8)
  | [] => none
  | instr :: rest => (scanNumber 16 rest).map fun r => (instr, toUnsignedLong r.1 r.2.1, skipSize r.2.2)

/-- The loop of `main`; `none` for an invalid instruction. -/
def traceLoop : ℕ → List UInt8 → Sim → Except Stop (Option Sim)
  | 0, _, _ => .error .fuel
  | fuel + 1, text, st =>
    match scanLine text with
    | none => .ok (some st)
    | some (instr, addr, rest) =>
      if instr = 76 then traceLoop fuel rest (st.access ⟨addr, false⟩)
      else if instr = 83 then traceLoop fuel rest (st.access ⟨addr, true⟩)
      else .ok none

/-- The line of `.csim_results`. -/
def resultsLine (hits misses evictions dirty_bytes dirty_evictions : ℕ) : List UInt8 :=
  numeral 10 hits ++ 32 :: numeral 10 misses ++ 32 :: numeral 10 evictions ++
    32 :: numeral 10 dirty_bytes ++ 32 :: numeral 10 dirty_evictions ++ [10]

/-- What is printed, and what the file `.csim_results` holds then. -/
def printSummary (hits misses evictions dirty_bytes dirty_evictions : ℕ) :
    List UInt8 × List UInt8 :=
  (str "hits:" ++ numeral 10 hits ++ str " misses:" ++ numeral 10 misses ++ str " evictions:" ++
      numeral 10 evictions ++ str " dirty_bytes_in_cache:" ++ numeral 10 dirty_bytes ++
      str " dirty_bytes_evicted:" ++ numeral 10 dirty_evictions ++ [10],
    resultsLine hits misses evictions dirty_bytes dirty_evictions)

/-- What `main` does behind its loop. -/
def summarize (s : ℕ) : Option Sim → List UInt8 × Option (List UInt8)
  | none => (str "invalid cache instruction", none)
  | some (cacheInfo, currCache) =>
    let dirty := dirtyInCache currCache (1 <<< s)
    let (out, file) := printSummary cacheInfo.hits cacheInfo.misses cacheInfo.evicts dirty
      cacheInfo.dirtyEvicted
    (out, some file)

/-- `main` with the options `-s`, `-E` and `-b`, given what is in the file of `-t`: what it prints, and
    `.csim_results` if it is written. -/
def main (fuel s E b : ℕ) (trace : Option (List UInt8)) :
    Except Stop (List UInt8 × Option (List UInt8)) :=
  match trace with
  | none => .ok (str "invalid trace file" ++ [10], none)
  | some text => do
    let st ← traceLoop fuel text (start s E b)
    .ok (summarize s st)

/-- A line `L` or `S` of a trace, with its address in hexadecimal and its size. -/
def Line (a : Access) (t : List UInt8) : Prop :=
  ∃ sp hex sp' size sp'', (∀ c ∈ sp, isspace c = true) ∧ Hex hex a.addr.toNat ∧
    (∀ c ∈ sp', isspace c = true) ∧ size ≠ [] ∧ (∀ c ∈ size, isdigit c = true) ∧
    sp'' ≠ [] ∧ (∀ c ∈ sp'', isspace c = true) ∧
    t = (if a.sflag then 83 else 76) :: (sp ++ (hex ++ 44 :: (sp' ++ (size ++ sp''))))

end Labs.Csim
