import KvEngine.Object.Text
import KvEngine.Raft.Node
import KvEngine.Server.Connection
import KvEngine.Store.Snapshot
import KvEngine.Systems.Program

/-!
# Commands

Model of the two functions `handle_command` (`src/server_main.cpp`, lines 18–75, and
`src/cluster_demo.cpp`, lines 28–103) and of the client (`src/kv_client.cpp`). A handler reads
the node and the store through their locks, and other threads run in between: it is a program
that asks.

Results:
* `ServerMain.meets_handleCommand`, `ClusterDemo.meets_handleCommand`: what a handler of a line
  asks, and which response it gives to what answers.
* `handles_isLine`: responses are lines, as long as the values of the store are on one line.
* `handles_redirect`: the client goes on to another port exactly when the response names a
  leader's, and to that one.
-/

namespace KvEngine

open Systems Systems.Prog

/-! ## Words -/

/-- `iss >> s` for an empty `s`: what it is then, and what is left of the line. -/
def word (text : Bytes) : Bytes × Bytes := (extract text).getD ([], [])

/-- The first words of a text, `n` at most. -/
def words : ℕ → Bytes → List Bytes
  | 0, _ => []
  | n + 1, text =>
    match extract text with
    | none => []
    | some (w, text) => w :: words n text

/-! ## Handlers -/

/-- What a handler asks. -/
inductive Call where
  /-- `raft->role()`. -/
  | role
  /-- `raft->leader_id()`. -/
  | leaderId
  /-- `store.get(key)`. -/
  | get (key : Bytes)
  /-- `store.size()`. -/
  | size
  /-- `store.flush_wal()`. -/
  | flushWal
  /-- `raft->ProposePut(key, value)`. -/
  | proposePut (key value : Bytes)
  /-- `raft->ProposeDel(key)`. -/
  | proposeDel (key : Bytes)
  /-- `raft->Stop()`. -/
  | stop
  /-- `*` of an empty optional, behind which nothing is said. -/
  | undefined

/-- The update that a question asks for. -/
def Call.update? : Call → Option LogOp
  | proposePut key value => some (.put key value)
  | proposeDel key => some (.del key)
  | _ => none

/-- The answers, where nodes are named by `ι`. -/
@[reducible] def Call.Answer (ι : Type) : Call → Type
  | role => RaftRole
  | leaderId => Option ι
  | get _ => Option Bytes
  | size => ℕ
  | flushWal => Bool
  | proposePut _ _ => Bool
  | proposeDel _ => Bool
  | stop => Unit
  | undefined => Empty

/-- A program that asks this. -/
abbrev Asking (ι : Type) := Prog Call (Call.Answer ι)

section

variable {ι : Type}

def ask (q : Call) : Asking ι (q.Answer ι) := Prog.query q

/-- `raft && (raft->role() == kv::RaftRole::Leader)`; `raft` says that the pointer is not null. -/
def leads (raft : Bool) : Asking ι Bool :=
  if raft then do
    let role ← ask .role
    return role = .leader
  else return false

/-- `v ? ("VALUE " + *v + "\n") : "NOT_FOUND\n"`. -/
def readResponse : Option Bytes → Bytes
  | some v => str "VALUE " ++ v ++ str "\n"
  | none => str "NOT_FOUND\n"

/-- What both programs do with `GET` and what is left of the line. -/
def getCommand (rest : Bytes) : Asking ι Bytes :=
  let k := (word rest).1
  if k = [] then return str "ERR usage: GET key\n"
  else do
    let v ← ask (.get k)
    return readResponse v

/-- `SIZE`. -/
def sizeCommand : Asking ι Bytes := do
  let n ← ask .size
  return str "SIZE " ++ decimal n ++ str "\n"

/-- `STATUS`. -/
def statusCommand (raft isLeader : Bool) : Asking ι Bytes :=
  return if !raft then str "ROLE UNKNOWN\n"
    else if isLeader then str "ROLE LEADER\n" else str "ROLE FOLLOWER\n"

/-- `ProposePut` and what is said about it. -/
def putCommand (k v : Bytes) : Asking ι Bytes := do
  let ok ← ask (.proposePut k v)
  return if ok then str "OK\n" else str "FAIL\n"

/-- `ProposeDel` and what is said about it. -/
def delCommand (k : Bytes) : Asking ι Bytes := do
  let ok ← ask (.proposeDel k)
  return if ok then str "OK\n" else str "NOT_FOUND\n"

/-! ### The standalone server -/

/-- `handle_command` of `server_main.cpp`. -/
def ServerMain.handleCommand (raft : Bool) (line : Bytes) : Asking ι Bytes := do
  let isLeader ← leads raft
  let (cmd, rest) := word line
  if cmd = str "PUT" then
    if !isLeader then return str "NOT_LEADER\n"
    else
      let (k, rest) := word rest
      let (v, _) := word rest
      if k = [] ∨ v = [] then return str "ERR usage: PUT key value\n"
      else putCommand k v
  else if cmd = str "GET" then getCommand rest
  else if cmd = str "DEL" then
    if !isLeader then return str "NOT_LEADER\n"
    else
      let (k, _) := word rest
      if k = [] then return str "ERR usage: DEL key\n"
      else delCommand k
  else if cmd = str "SIZE" then sizeCommand
  else if cmd = str "FLUSH" then
    let ok ← ask .flushWal
    return if ok then str "FLUSH_OK\n" else str "FLUSH_FAIL\n"
  else if cmd = str "PING" then return str "PONG\n"
  else if cmd = str "STATUS" then statusCommand raft isLeader
  else return str "ERR unknown command\n"

/-! ### A node of the cluster -/

/-- `port_for_node` (lines 19–26). -/
def portForNode (nodeId : ℤ) : ℤ :=
  if nodeId = 1 then 9101
  else if nodeId = 2 then 9102
  else if nodeId = 3 then 9103
  else -1

/-- The port of the leader the node knows of, or -1 (lines 44–47, 70–73). It looks at
`leader_id()` twice. -/
def leaderPort (nodeId : ι → ℤ) (raft : Bool) : Asking ι ℤ :=
  if raft then do
    let hint ← ask .leaderId
    if hint.isSome then
      let hint ← ask .leaderId
      match hint with
      | some l => return portForNode (nodeId l)
      | none => do
        let nothing ← ask .undefined
        nothing.elim
    else return -1
  else return -1

/-- The response that names a port. -/
def notLeaderAt (port : ℕ) : Bytes := str "NOT_LEADER " ++ decimal port ++ str "\n"

/-- The response of a node that does not lead (lines 43–52, 69–78). -/
def notLeader (nodeId : ι → ℤ) (raft : Bool) : Asking ι Bytes := do
  let port ← leaderPort nodeId raft
  return if 0 < port then notLeaderAt port.toNat else str "NOT_LEADER UNKNOWN\n"

/-- `handle_command` of `cluster_demo.cpp`. -/
def ClusterDemo.handleCommand (nodeId : ι → ℤ) (raft : Bool) (line : Bytes) : Asking ι Bytes := do
  let (cmd, rest) := word line
  let isLeader ← leads raft
  if cmd = str "PUT" then
    let (k, rest) := word rest
    let (v, _) := word rest
    if k = [] ∨ v = [] then return str "ERR usage: PUT key value\n"
    else if !isLeader then notLeader nodeId raft
    else putCommand k v
  else if cmd = str "GET" then getCommand rest
  else if cmd = str "DEL" then
    let (k, _) := word rest
    if k = [] then return str "ERR usage: DEL key\n"
    else if !isLeader then notLeader nodeId raft
    else delCommand k
  else if cmd = str "SIZE" then sizeCommand
  else if cmd = str "STATUS" then statusCommand raft isLeader
  else if cmd = str "PING" then return str "PONG\n"
  else if cmd = str "KILL" then
    if !raft then return str "ERR no raft\n"
    else do
      let _ ← ask .stop
      return str "STOPPED\n"
  else return str "ERR unknown command\n"

end

/-! ## The client -/

/-- `in >> n` for an `int`: 0 when there is no number, and the bounds of the type for what is
beyond them. -/
def extractInt (text : Bytes) : ℤ :=
  match parseInteger text with
  | none => 0
  | some (neg, n) => max (-2 ^ 31) (min (2 ^ 31 - 1) (if neg then -n else n))

/-- `std::string(buf)`: up to the first NUL. -/
def cString (buf : Bytes) : Bytes := buf.takeWhile (· ≠ 0)

/-- The port `main` of `kv_client.cpp` sends the command to a second time (lines 50–61). -/
def redirect (resp : Bytes) : Option ℤ :=
  if (str "NOT_LEADER ").isPrefixOf resp then
    let port := extractInt (word resp).2
    if 0 < port then some port else none
  else none

/-! ## Words that were read -/

theorem words_succ {text : Bytes} (h : (word text).1 ≠ []) (n : ℕ) :
    words (n + 1) text = (word text).1 :: words n (word text).2 := by
  unfold word at *
  rw [words]
  cases hex : extract text with
  | none => simp [hex] at h
  | some x => simp

theorem token_of_mem_words {n : ℕ} {text w : Bytes} (h : w ∈ words n text) : Token w := by
  induction n generalizing text with
  | zero => simp [words] at h
  | succ n ih =>
    rw [words] at h
    cases hex : extract text with
    | none => simp [hex] at h
    | some x =>
      simp only [hex, List.mem_cons] at h
      rcases h with rfl | h
      · exact .of_extract hex
      · exact ih h

/-! ## What the handlers do -/

section

variable {ι : Type} {may : Call → Prop} {expected : ∀ q : Call, q.Answer ι → Prop}
  {should : Bytes → Prop} {raft : Bool}

theorem meets_leads {next : Bool → Prop} (hmay : may .role) (h : ∀ b, next b) :
    (leads (ι := ι) raft).Meets may expected next := by
  unfold leads
  split_ifs
  · exact ⟨hmay, fun role _ => h _⟩
  · exact h false

/-- The responses without anything of the node or the store in them. -/
def fixedResponses : List Bytes :=
  [str "ERR usage: PUT key value\n", str "ERR usage: GET key\n", str "ERR usage: DEL key\n",
    str "NOT_FOUND\n", str "FAIL\n", str "NOT_LEADER\n", str "NOT_LEADER UNKNOWN\n",
    str "ROLE UNKNOWN\n", str "ROLE LEADER\n", str "ROLE FOLLOWER\n", str "PONG\n",
    str "FLUSH_OK\n", str "FLUSH_FAIL\n", str "ERR no raft\n", str "ERR unknown command\n"]

/-- What a handler of the line may ask, and which responses it should give to what answers. -/
structure Handles (line : Bytes) (may : Call → Prop) (expected : ∀ q : Call, q.Answer ι → Prop)
    (should : Bytes → Prop) : Prop where
  fixed : ∀ r ∈ fixedResponses, should r
  role : may .role
  get : ∀ k, words 2 line = [str "GET", k] →
    may (.get k) ∧ ∀ v, expected (.get k) (some v) → should (str "VALUE " ++ v ++ str "\n")
  size : may .size ∧ ∀ n, expected .size n → should (str "SIZE " ++ decimal n ++ str "\n")
  put : ∀ k v, words 3 line = [str "PUT", k, v] →
    may (.proposePut k v) ∧ (expected (.proposePut k v) true → should (str "OK\n"))
  del : ∀ k, words 2 line = [str "DEL", k] →
    may (.proposeDel k) ∧ (expected (.proposeDel k) true → should (str "OK\n"))
  stop : may .stop ∧ (expected .stop () → should (str "STOPPED\n"))

variable {line : Bytes}

theorem meets_getCommand (h : Handles line may expected should)
    (hcmd : (word line).1 = str "GET") : (getCommand (word line).2).Meets may expected should := by
  unfold getCommand
  simp only
  split_ifs with hk
  · exact h.fixed _ (by decide)
  · have hwords : words 2 line = [str "GET", (word (word line).2).1] := by
      rw [words_succ (by rw [hcmd]; decide), words_succ hk, hcmd]
      rfl
    obtain ⟨hmay, hval⟩ := h.get _ hwords
    refine ⟨hmay, fun v hv => ?_⟩
    cases v with
    | none => exact h.fixed (str "NOT_FOUND\n") (by decide)
    | some v => exact hval v hv

theorem meets_sizeCommand (h : Handles line may expected should) :
    sizeCommand.Meets may expected should :=
  ⟨h.size.1, h.size.2⟩

theorem meets_statusCommand (h : Handles line may expected should) (isLeader : Bool) :
    (statusCommand raft isLeader).Meets may expected should := by
  unfold statusCommand
  refine h.fixed _ ?_
  split_ifs <;> decide

theorem meets_putCommand (h : Handles line may expected should)
    (hcmd : (word line).1 = str "PUT") (hk : (word (word line).2).1 ≠ [])
    (hv : (word (word (word line).2).2).1 ≠ []) :
    (putCommand (word (word line).2).1 (word (word (word line).2).2).1).Meets may expected
      should := by
  have hwords : words 3 line =
      [str "PUT", (word (word line).2).1, (word (word (word line).2).2).1] := by
    rw [words_succ (by rw [hcmd]; decide), words_succ hk, words_succ hv, hcmd]
    rfl
  obtain ⟨hmay, hok⟩ := h.put _ _ hwords
  refine ⟨hmay, fun ok hexp => ?_⟩
  cases ok with
  | false => exact h.fixed _ (by decide)
  | true => exact hok hexp

theorem meets_delCommand (h : Handles line may expected should)
    (hcmd : (word line).1 = str "DEL") (hk : (word (word line).2).1 ≠ []) :
    (delCommand (word (word line).2).1).Meets may expected should := by
  have hwords : words 2 line = [str "DEL", (word (word line).2).1] := by
    rw [words_succ (by rw [hcmd]; decide), words_succ hk, hcmd]
    rfl
  obtain ⟨hmay, hok⟩ := h.del _ hwords
  refine ⟨hmay, fun ok hexp => ?_⟩
  cases ok with
  | false => exact h.fixed _ (by decide)
  | true => exact hok hexp

theorem meets_notLeader {nodeId : ι → ℤ} (hunknown : should (str "NOT_LEADER UNKNOWN\n"))
    (hhint : may .leaderId ∧ ∀ l, expected .leaderId (some l) → 0 < portForNode (nodeId l) →
      should (notLeaderAt (portForNode (nodeId l)).toNat))
    (hundefined : may .undefined) : (notLeader nodeId raft).Meets may expected should := by
  rw [notLeader, meets_bind]
  unfold leaderPort
  split_ifs
  · refine ⟨hhint.1, fun hint _ => ?_⟩
    show (ite _ _ _ : Asking ι ℤ).Meets _ _ _
    split_ifs
    · refine ⟨hhint.1, fun hint hexp => ?_⟩
      cases hint with
      | none => exact ⟨hundefined, fun nothing => nothing.elim⟩
      | some l =>
        show should (ite _ _ _)
        split_ifs with hport
        · exact hhint.2 l hexp hport
        · exact hunknown
    · exact hunknown
  · exact hunknown

/-- The standalone server. -/
theorem ServerMain.meets_handleCommand (h : Handles line may expected should)
    (hflush : may .flushWal) :
    (ServerMain.handleCommand raft line).Meets may expected should := by
  rw [ServerMain.handleCommand, meets_bind]
  refine meets_leads h.role fun isLeader => ?_
  simp only
  split_ifs with hput hlead hargs hget hdel hlead' hkey hsize hflushed hping hstatus
  · exact h.fixed _ (by decide)
  · exact h.fixed _ (by decide)
  · rw [not_or] at hargs
    exact meets_putCommand h hput hargs.1 hargs.2
  · exact meets_getCommand h hget
  · exact h.fixed _ (by decide)
  · exact h.fixed _ (by decide)
  · exact meets_delCommand h hdel hkey
  · exact meets_sizeCommand h
  · refine ⟨hflush, fun ok _ => h.fixed _ ?_⟩
    cases ok <;> decide
  · exact h.fixed _ (by decide)
  · exact meets_statusCommand h isLeader
  · exact h.fixed _ (by decide)

/-- A node of the cluster. -/
theorem ClusterDemo.meets_handleCommand {nodeId : ι → ℤ} (h : Handles line may expected should)
    (hhint : may .leaderId ∧ ∀ l, expected .leaderId (some l) → 0 < portForNode (nodeId l) →
      should (notLeaderAt (portForNode (nodeId l)).toNat))
    (hundefined : may .undefined) :
    (ClusterDemo.handleCommand nodeId raft line).Meets may expected should := by
  rw [ClusterDemo.handleCommand]
  simp only
  rw [meets_bind]
  refine meets_leads h.role fun isLeader => ?_
  split_ifs with hput hargs hlead hget hdel hkey hlead' hsize hstatus hping hkill hraft
  · exact h.fixed _ (by decide)
  · exact meets_notLeader (h.fixed _ (by decide)) hhint hundefined
  · rw [not_or] at hargs
    exact meets_putCommand h hput hargs.1 hargs.2
  · exact meets_getCommand h hget
  · exact h.fixed _ (by decide)
  · exact meets_notLeader (h.fixed _ (by decide)) hhint hundefined
  · exact meets_delCommand h hdel hkey
  · exact meets_sizeCommand h
  · exact meets_statusCommand h isLeader
  · exact h.fixed _ (by decide)
  · exact h.fixed _ (by decide)
  · exact ⟨h.stop.1, fun _ => h.stop.2⟩
  · exact h.fixed _ (by decide)

end

/-! ## Updates -/

/-- The line asks for the update. -/
def Requests (line : Bytes) : LogOp → Prop
  | .put k v => words 3 line = [str "PUT", k, v]
  | .del k => words 2 line = [str "DEL", k]

instance (line : Bytes) : (op : LogOp) → Decidable (Requests line op)
  | .put _ _ => inferInstanceAs (Decidable (_ = _))
  | .del _ => inferInstanceAs (Decidable (_ = _))

section

variable {ι : Type} {nodeId : ι → ℤ} {raft : Bool}

/-- A handler asks for the update that its line asks for, whatever the answers. -/
theorem handles_requests (line : Bytes) :
    Handles (ι := ι) line (fun q => ∀ op ∈ q.update?, Requests line op) (fun _ _ => True)
      (fun _ => True) where
  fixed _ _ := trivial
  role op h := by simp [Call.update?] at h
  get _ _ := ⟨fun op h => by simp [Call.update?] at h, fun _ _ => trivial⟩
  size := ⟨fun op h => by simp [Call.update?] at h, fun _ _ => trivial⟩
  put k v h := ⟨fun op hop => Option.some.inj hop ▸ h, fun _ => trivial⟩
  del k h := ⟨fun op hop => Option.some.inj hop ▸ h, fun _ => trivial⟩
  stop := ⟨fun op h => by simp [Call.update?] at h, fun _ => trivial⟩

theorem ClusterDemo.requests_handleCommand (line : Bytes) :
    (ClusterDemo.handleCommand nodeId raft line).Meets
      (fun q => ∀ op ∈ q.update?, Requests line op) (fun _ _ => True) (fun _ => True) :=
  ClusterDemo.meets_handleCommand (handles_requests line)
    ⟨fun op h => by simp [Call.update?] at h, fun _ _ _ => trivial⟩
    fun op h => by simp [Call.update?] at h

/-- It asks for one. -/
theorem ClusterDemo.atMost_handleCommand (line : Bytes) :
    (ClusterDemo.handleCommand nodeId raft line).AtMost (fun q => q.update?.isSome) 1 := by
  have hquiet : ∀ {α : Type} {p : Asking ι α} (n : ℕ),
      p.Meets (fun q => q.update?.isSome = false) (fun _ _ => True) (fun _ => True) →
      p.AtMost (fun q => q.update?.isSome) n := fun n h => .of_meets h (fun _ _ => trivial) n
  have hnot : (notLeader nodeId raft).AtMost (fun q => q.update?.isSome) 1 :=
    hquiet 1 (meets_notLeader trivial ⟨rfl, fun _ _ _ => trivial⟩ rfl)
  rw [ClusterDemo.handleCommand]
  simp only
  refine AtMost.bind (n := 1) (hquiet 0 (meets_leads rfl fun _ => trivial)) fun isLeader => ?_
  simp only [getCommand, sizeCommand, statusCommand, putCommand, delCommand]
  split_ifs
  all_goals first
    | trivial
    | exact hnot
    | exact hquiet 1 ⟨rfl, fun _ _ => trivial⟩
    | exact ⟨fun _ => Nat.one_pos, fun _ => trivial⟩

/-- A `GET` answers with what was read. -/
theorem ClusterDemo.meets_handleCommand_get {may : Call → Prop}
    {expected : ∀ q : Call, q.Answer ι → Prop} {should : Bytes → Prop} {line k : Bytes}
    (hline : words 2 line = [str "GET", k]) (hrole : may .role) (hget : may (.get k))
    (hread : ∀ v, expected (.get k) v → should (readResponse v)) :
    (ClusterDemo.handleCommand nodeId raft line).Meets may expected should := by
  obtain ⟨hcmd, hkey, hne⟩ : (word line).1 = str "GET" ∧ (word (word line).2).1 = k ∧ k ≠ [] := by
    unfold word
    cases h₁ : extract line with
    | none => simp [words, h₁] at hline
    | some x =>
      cases h₂ : extract x.2 with
      | none => simp [words, h₁, h₂] at hline
      | some y =>
        simp only [words, h₁, h₂, List.cons.injEq, and_true] at hline
        refine ⟨hline.1, by simpa [h₂] using hline.2, ?_⟩
        rw [← hline.2]
        exact (Token.of_extract h₂).1
  subst hkey
  rw [ClusterDemo.handleCommand]
  simp only [hcmd]
  rw [meets_bind]
  refine meets_leads hrole fun _ => ?_
  rw [if_neg (by decide), if_pos trivial, getCommand, if_neg hne]
  exact ⟨hget, hread⟩

end

/-! ## Responses are lines -/

/-- One newline, at the end. -/
def IsLine (r : Bytes) : Prop := newline ∉ r.dropLast ∧ r.getLast? = some newline

instance (r : Bytes) : Decidable (IsLine r) := inferInstanceAs (Decidable (_ ∧ _))

theorem isLine_append {s : Bytes} (h : newline ∉ s) : IsLine (s ++ str "\n") := by
  rw [show str "\n" = [newline] from rfl]
  exact ⟨by rwa [List.dropLast_concat], List.getLast?_concat⟩

theorem newline_not_mem_decimal (n : ℕ) : newline ∉ decimal n := by
  intro h
  have hdigit := isDigit_of_mem_decimal h
  revert hdigit
  decide

/-- The answers of a store whose values are on one line. -/
def OnOneLine {ι : Type} : ∀ q : Call, q.Answer ι → Prop
  | .get _, some v => newline ∉ v
  | _, _ => True

theorem isLine_notLeaderAt (port : ℕ) : IsLine (notLeaderAt port) := by
  refine isLine_append ?_
  rw [List.mem_append, not_or]
  exact ⟨by decide, newline_not_mem_decimal port⟩

/-- Whatever the answers, as long as values are on one line. -/
theorem handles_isLine {ι : Type} (line : Bytes) :
    Handles line (fun _ => True) (OnOneLine (ι := ι)) IsLine where
  fixed := by decide
  role := trivial
  get k _ := by
    refine ⟨trivial, fun v hv => isLine_append ?_⟩
    rw [List.mem_append, not_or]
    exact ⟨by decide, hv⟩
  size := by
    refine ⟨trivial, fun n _ => isLine_append ?_⟩
    rw [List.mem_append, not_or]
    exact ⟨by decide, newline_not_mem_decimal n⟩
  put _ _ _ := ⟨trivial, fun _ => by decide⟩
  del _ _ := ⟨trivial, fun _ => by decide⟩
  stop := ⟨trivial, fun _ => by decide⟩

/-! ## Redirections -/

/-- Only a response that begins with an `N` redirects. -/
theorem redirect_of_head {b : UInt8} {r : Bytes} (h : b ≠ 78) :
    redirect (cString (b :: r)) = none := by
  unfold redirect
  rw [if_neg]
  intro hprefix
  rw [List.isPrefixOf_iff_prefix] at hprefix
  obtain ⟨t, ht⟩ := hprefix
  by_cases hzero : b = 0
  · simp [cString, hzero, str] at ht
  · simp only [cString, List.takeWhile_cons, ne_eq, hzero, not_false_eq_true, decide_true,
      if_true] at ht
    exact h (List.cons.inj ht).1.symm

/-- Digits behind spaces and before something else. -/
theorem parseInteger_append {ws rest : Bytes} (hws : ∀ b ∈ ws, isSpace b = true) (n : ℕ)
    (hrest : ∀ b ∈ rest.head?, isDigit b = false) :
    parseInteger (ws ++ (decimal n ++ rest)) = some (false, n) := by
  obtain ⟨b, s, hbs⟩ := List.exists_cons_of_ne_nil (decimal_ne_nil n)
  have hb : isDigit b = true := isDigit_of_mem_decimal (hbs ▸ List.mem_cons_self)
  obtain ⟨hspace, hminus, hplus⟩ := isDigit_ne b hb
  have hdrop : (ws ++ (decimal n ++ rest)).dropWhile isSpace = decimal n ++ rest := by
    rw [List.dropWhile_append_of_pos hws, hbs, List.cons_append, List.dropWhile_cons_of_neg]
    simp [hspace]
  have hhead : (decimal n ++ rest).head? = some b := by rw [hbs, List.cons_append, List.head?_cons]
  have hstop : rest.takeWhile isDigit = [] := by
    cases rest with
    | nil => rfl
    | cons c rest => simp [hrest c rfl]
  have htake : (decimal n ++ rest).takeWhile isDigit = decimal n := by
    rw [List.takeWhile_append_of_pos fun x hx => isDigit_of_mem_decimal hx, hstop, List.append_nil]
  unfold parseInteger
  simp only [hdrop, hhead, Option.some.injEq, hminus, hplus, or_self, if_false, htake,
    decimal_ne_nil, digitsValue_decimal]
  rfl

/-- The client goes to the port that the response names. -/
theorem redirect_notLeaderAt {port : ℕ} (hpos : 0 < port) (hlt : port < 2 ^ 31) :
    redirect (cString (notLeaderAt port)) = some (port : ℤ) := by
  have hdigits : (0 : UInt8) ∉ decimal port := by
    intro h
    have hdigit := isDigit_of_mem_decimal h
    revert hdigit
    decide
  have hwhole : cString (notLeaderAt port) = notLeaderAt port := by
    have hmem : (0 : UInt8) ∉ notLeaderAt port := by
      simp only [notLeaderAt, List.mem_append, not_or]
      exact ⟨⟨by decide, hdigits⟩, by decide⟩
    refine List.takeWhile_eq_self_iff.mpr fun b hb => ?_
    have hb' : b ≠ 0 := fun hzero => hmem (hzero ▸ hb)
    simpa using hb'
  have hspace : ∀ b ∈ (str " " ++ (decimal port ++ str "\n")).head?, isSpace b = true := by
    intro b hb
    obtain rfl := Option.some.inj hb
    rfl
  have hword : (word (notLeaderAt port)).2 = str " " ++ (decimal port ++ str "\n") := by
    have hextract : extract (notLeaderAt port) =
        some (str "NOT_LEADER", str " " ++ (decimal port ++ str "\n")) := by
      have hsplit : notLeaderAt port =
          [] ++ (str "NOT_LEADER" ++ (str " " ++ (decimal port ++ str "\n"))) := by
        rw [notLeaderAt, List.append_assoc]
        rfl
      rw [hsplit]
      exact extract_token (by simp) ⟨by decide, by decide +kernel⟩ hspace
    rw [word, hextract]
    rfl
  have hparse : parseInteger (str " " ++ (decimal port ++ str "\n")) = some (false, port) := by
    refine parseInteger_append (fun b hb => ?_) port fun b hb => ?_
    · obtain rfl := List.mem_singleton.mp hb
      rfl
    · obtain rfl := Option.some.inj hb
      rfl
  have hrange : max (-2 ^ 31) (min (2 ^ 31 - 1) (port : ℤ)) = port := by omega
  have hprefix : (str "NOT_LEADER ").isPrefixOf (notLeaderAt port) = true := by
    rw [List.isPrefixOf_iff_prefix, notLeaderAt, List.append_assoc]
    exact List.prefix_append _ _
  rw [hwhole, redirect, if_pos hprefix]
  simp only [hword, extractInt, hparse, Bool.false_eq_true, if_false, hrange]
  rw [if_pos (by omega)]

/-- The answers in which `P` holds of the leader that is named. -/
def Hints {ι : Type} (P : ι → Prop) : ∀ q : Call, q.Answer ι → Prop
  | .leaderId, some l => P l
  | _, _ => True

/-- A response redirects to the port of a leader that was named, if at all. -/
def RedirectsTo {ι : Type} (nodeId : ι → ℤ) (P : ι → Prop) (resp : Bytes) : Prop :=
  ∀ p, redirect (cString resp) = some p → ∃ l, P l ∧ portForNode (nodeId l) = p

theorem handles_redirect {ι : Type} (nodeId : ι → ℤ) (P : ι → Prop) (line : Bytes) :
    Handles line (fun _ => True) (Hints P) (RedirectsTo nodeId P) where
  fixed := by
    have hnone : ∀ r ∈ fixedResponses, redirect (cString r) = none := by decide
    intro r hr p hp
    simp [hnone r hr] at hp
  role := trivial
  get k _ := ⟨trivial, fun v _ p hp => by
    rw [show str "VALUE " ++ v ++ str "\n" = 86 :: (str "ALUE " ++ v ++ str "\n") from rfl,
      redirect_of_head (by decide)] at hp
    simp at hp⟩
  size := ⟨trivial, fun n _ p hp => by
    rw [show str "SIZE " ++ decimal n ++ str "\n" = 83 :: (str "IZE " ++ decimal n ++ str "\n")
      from rfl, redirect_of_head (by decide)] at hp
    simp at hp⟩
  put _ _ _ := ⟨trivial, fun _ p hp => by
    rw [show redirect (cString (str "OK\n")) = none by decide] at hp
    simp at hp⟩
  del _ _ := ⟨trivial, fun _ p hp => by
    rw [show redirect (cString (str "OK\n")) = none by decide] at hp
    simp at hp⟩
  stop := ⟨trivial, fun _ p hp => by
    rw [show redirect (cString (str "STOPPED\n")) = none by decide] at hp
    simp at hp⟩

theorem portForNode_lt (nodeId : ℤ) : portForNode nodeId < 2 ^ 31 := by
  unfold portForNode
  split_ifs <;> norm_num

/-- A response that names a leader's port redirects to it. -/
theorem redirectsTo_notLeaderAt {ι : Type} {nodeId : ι → ℤ} {P : ι → Prop} {l : ι} (h : P l)
    (hpos : 0 < portForNode (nodeId l)) :
    RedirectsTo nodeId P (notLeaderAt (portForNode (nodeId l)).toNat) := by
  intro p hp
  have hlt := portForNode_lt (nodeId l)
  rw [redirect_notLeaderAt (by omega) (by omega)] at hp
  refine ⟨l, h, ?_⟩
  have heq := Option.some.inj hp
  omega

end KvEngine
