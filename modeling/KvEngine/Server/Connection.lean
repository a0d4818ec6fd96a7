import KvEngine.Codes.Delimited
import KvEngine.Common.Bytes

/-!
# Connections

Model of the loop that `main` (`src/server_main.cpp`, lines 126–154) and `run_server`
(`src/cluster_demo.cpp`, lines 138–165) run for each client: `read` appends to a pending
buffer, every newline in it ends a line, and the lines go to `handle_command`. The handler is
a parameter, as a function of the program's state and the line.

Results:
* `drainLines_eq`: the inner loop passes on the lines of the buffer and keeps what is behind
  the last newline.
* `serveClient_commandLines`: what a connection does depends on the bytes of the client only,
  not on how `read` cuts them.
-/

namespace KvEngine

open Delimited

/-- `'\n'`. -/
def newline : UInt8 := 10

/-- `'\r'`. -/
def carriageReturn : UInt8 := 13

/-- `s.find(c, pos)` of a `std::string`; `none` is `npos`. -/
def findFrom (s : Bytes) (c : UInt8) (pos : ℕ) : Option ℕ := ((s.drop pos).idxOf? c).map (pos + ·)

/-- `if (!line.empty() && line.back() == '\r') line.pop_back();` -/
def popReturn (line : Bytes) : Bytes :=
  if line.getLast? = some carriageReturn then line.dropLast else line

section Loops

variable {σ : Type} (handleCommand : σ → Bytes → σ × Bytes)

/-- The inner loop (`server_main.cpp`, lines 135–151) from position `pos` on, for at most `fuel`
lines: the program's state, the responses written and the pending bytes. -/
def drainLines : ℕ → Bytes → ℕ → σ → σ × List Bytes × Bytes
  | 0, pending, pos, s => (s, [], pending.drop pos)
  | fuel + 1, pending, pos, s =>
    match findFrom pending newline pos with
    | none => (s, [], pending.drop pos)
    | some nl =>
      let line := popReturn ((pending.drop pos).take (nl - pos))
      let (s, resp) := handleCommand s line
      let (s, resps, pending) := drainLines fuel pending (nl + 1) s
      (s, resp :: resps, pending)

/-- The loop of a connection (lines 129–152) on what its calls of `read` return up to the one
that returns 0 or fails: the program's state and the responses. A buffer of `n` bytes has at most
`n` lines. -/
def serveClient : List Bytes → Bytes → σ → σ × List Bytes
  | [], _, s => (s, [])
  | buffer :: buffers, pending, s =>
    let pending := pending ++ buffer
    let (s, resps, pending) := drainLines handleCommand (pending.length + 1) pending 0 s
    let (s, resps') := serveClient buffers pending s
    (s, resps ++ resps')

/-- What the program makes of a list of lines, one after the other. -/
def handleLines : List Bytes → σ → σ × List Bytes
  | [], s => (s, [])
  | line :: lines, s =>
    let (s, resp) := handleCommand s line
    let (s, resps) := handleLines lines s
    (s, resp :: resps)

end Loops

/-- The lines that a connection passes to `handle_command`: a handler that notes them. -/
def linesPassed (buffers : List Bytes) : List Bytes :=
  (serveClient (fun lines line => (lines ++ [line], [])) buffers [] []).1

/-- The lines of a stream that have ended with a newline, each without a return at its end. -/
def commandLines (stream : Bytes) : List Bytes := (items newline stream).map popReturn

example : commandLines (str "PUT a 1\r\n\nGET a\r\r\nSIZ") =
    [str "PUT a 1", [], str "GET a\r"] := by decide

theorem commandLines_of_not_mem {stream : Bytes} (h : newline ∉ stream) :
    commandLines stream = [] := by
  rw [commandLines, items_of_not_mem h]
  rfl

theorem commandLines_append_cons {line : Bytes} (h : newline ∉ line) (stream : Bytes) :
    commandLines (line ++ newline :: stream) = popReturn line :: commandLines stream := by
  rw [commandLines, items_append_cons h]
  rfl

/-- A stream that goes on. -/
theorem commandLines_append (stream stream' : Bytes) :
    commandLines (stream ++ stream') =
      commandLines stream ++ commandLines (rest newline stream ++ stream') := by
  rw [commandLines, items_append, List.map_append]
  rfl

/-! ## The inner loop -/

theorem findFrom_eq_none {s : Bytes} {c : UInt8} {pos : ℕ} (h : c ∉ s.drop pos) :
    findFrom s c pos = none := by
  rw [findFrom, List.idxOf?_eq_none_iff.mpr h]
  rfl

theorem findFrom_eq_some {s a b : Bytes} {c : UInt8} {pos : ℕ} (h : s.drop pos = a ++ c :: b)
    (ha : c ∉ a) : findFrom s c pos = some (pos + a.length) := by
  have hindex : (a ++ c :: b).idxOf? c = some a.length := by
    rw [List.idxOf?_eq_some_iff]
    refine ⟨by simp, by simp, fun j hj heq => ?_⟩
    rw [List.getElem_append_left hj] at heq
    exact ha (heq ▸ List.getElem_mem hj)
  rw [findFrom, h, hindex]
  rfl

variable {σ : Type} {handleCommand : σ → Bytes → σ × Bytes}

theorem handleLines_append (lines lines' : List Bytes) (s : σ) :
    handleLines handleCommand (lines ++ lines') s =
      ((handleLines handleCommand lines' (handleLines handleCommand lines s).1).1,
        (handleLines handleCommand lines s).2 ++
          (handleLines handleCommand lines' (handleLines handleCommand lines s).1).2) := by
  induction lines generalizing s with
  | nil => rfl
  | cons line lines ih => simp only [List.cons_append, handleLines, ih]

/-- The inner loop passes on the lines from `pos` on and keeps what is behind the last newline. -/
theorem drainLines_eq {fuel : ℕ} {pending : Bytes} {pos : ℕ} (s : σ)
    (hfuel : (pending.drop pos).length < fuel) :
    drainLines handleCommand fuel pending pos s =
      ((handleLines handleCommand (commandLines (pending.drop pos)) s).1,
        (handleLines handleCommand (commandLines (pending.drop pos)) s).2,
        rest newline (pending.drop pos)) := by
  induction fuel generalizing pos s with
  | zero => exact absurd hfuel (Nat.not_lt_zero _)
  | succ fuel ih =>
    rw [drainLines]
    rcases eq_or_append_cons newline (pending.drop pos) with hno | ⟨line, after, hsplit, hline⟩
    · rw [findFrom_eq_none hno, commandLines_of_not_mem hno, rest_of_not_mem hno]
      rfl
    · -- the next line, and those from behind its newline on
      have hnext : pending.drop (pos + line.length + 1) = after := by
        rw [Nat.add_assoc, ← List.drop_drop, hsplit]
        simp
      have htake : (pending.drop pos).take (pos + line.length - pos) = line := by
        rw [Nat.add_sub_cancel_left, hsplit, List.take_left]
      have hshort : (pending.drop (pos + line.length + 1)).length < fuel := by
        rw [hsplit, List.length_append, List.length_cons] at hfuel
        rw [hnext]
        omega
      rw [findFrom_eq_some hsplit hline]
      simp only [htake, ih _ hshort, hnext]
      rw [hsplit, commandLines_append_cons hline, rest_append_cons hline]
      rfl

/-! ## The connection -/

/-- From a pending buffer without a newline. -/
theorem serveClient_eq (buffers : List Bytes) {pending : Bytes} (hpending : newline ∉ pending)
    (s : σ) :
    serveClient handleCommand buffers pending s =
      handleLines handleCommand (commandLines (pending ++ buffers.flatten)) s := by
  induction buffers generalizing pending s with
  | nil =>
    rw [List.flatten_nil, List.append_nil, commandLines_of_not_mem hpending]
    rfl
  | cons buffer buffers ih =>
    have hdrain :
      drainLines handleCommand ((pending ++ buffer).length + 1) (pending ++ buffer) 0 s =
        ((handleLines handleCommand (commandLines (pending ++ buffer)) s).1,
          (handleLines handleCommand (commandLines (pending ++ buffer)) s).2,
          rest newline (pending ++ buffer)) :=
      drainLines_eq s (Nat.lt_succ_self _)
    rw [serveClient, List.flatten_cons, ← List.append_assoc, commandLines_append,
      handleLines_append]
    simp only [hdrain, ih (not_mem_rest newline (pending ++ buffer))]

/-- A handler that notes its lines. -/
theorem handleLines_note (lines noted : List Bytes) :
    (handleLines (fun lines line => (lines ++ [line], [])) lines noted).1 = noted ++ lines := by
  induction lines generalizing noted with
  | nil => exact (List.append_nil noted).symm
  | cons line lines ih =>
    rw [handleLines]
    simp only [ih, List.append_assoc, List.singleton_append]

/-- **Command framing is independent of how `read` cuts the stream.** The lines passed to the
handler are the newline-terminated lines of what the client sent, in order, each without one
return at its end, and nothing behind the last newline. So two cuttings of one stream execute
the same commands: every handler ends in the same state with the same responses. -/
theorem serveClient_commandLines (buffers : List Bytes) :
    linesPassed buffers = commandLines buffers.flatten ∧
      ∀ {σ : Type} (handleCommand : σ → Bytes → σ × Bytes) (s : σ),
        serveClient handleCommand buffers [] s =
            handleLines handleCommand (commandLines buffers.flatten) s ∧
          ∀ buffers', buffers'.flatten = buffers.flatten →
            serveClient handleCommand buffers' [] s = serveClient handleCommand buffers [] s := by
  refine ⟨?_, fun handleCommand s => ⟨serveClient_eq buffers List.not_mem_nil s, ?_⟩⟩
  · rw [linesPassed, serveClient_eq buffers List.not_mem_nil, handleLines_note]
    rfl
  · intro buffers' hsame
    rw [serveClient_eq buffers' List.not_mem_nil, serveClient_eq buffers List.not_mem_nil, hsame]

end KvEngine
