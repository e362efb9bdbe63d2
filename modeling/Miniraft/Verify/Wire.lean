import Miniraft.Raft.Wire
import Miniraft.Verify.Serde

/-!
# Messages are read as they were sent

Messages of all kinds are written and read back, commands without the fields for their replies
(`codes_envelope`). A message is printed without a newline, so that the lines of the output are the
messages, and reading them line by line gives the messages that were sent, in the same order
(`readAll_sent`).
-/

namespace Miniraft

open Json

variable {K V : Type} [Serialize K] [Deserialize K] [Serialize V] [Deserialize V]

/-! ## Commands and log entries -/

theorem codes_wireCommand (hK : ∀ key : K, Codes 1 key key) (hV : ∀ value : V, Codes 1 value value)
    (cmd : WireCommand K V) : Codes 2 cmd cmd := by
  cases cmd with
  | read key =>
    refine codes_ofFields ["T", "k"] rfl rfl (by decide)
      (.tag (by decide) (.cons (hK key) .nil)) ?_
    rintro fs ⟨htyp, ⟨w₁, hw₁, h₁⟩, -⟩
    rw [deserialize, instDeserializeWireCommand]
    simp only [removeKey, lookup_remove, String.reduceEq, if_false, htyp, hw₁, h₁]
    rfl
  | write key value =>
    refine codes_ofFields ["T", "k", "v"] rfl rfl (by decide)
      (.tag (by decide) (.cons (hK key) (.cons (hV value) .nil))) ?_
    rintro fs ⟨htyp, ⟨w₁, hw₁, h₁⟩, ⟨w₂, hw₂, h₂⟩, -⟩
    rw [deserialize, instDeserializeWireCommand]
    simp only [removeKey, lookup_remove, String.reduceEq, if_false, htyp, hw₁, h₁, hw₂, h₂]
    rfl
  | cas key fromValue toValue =>
    refine codes_ofFields ["T", "k", "f", "t"] rfl rfl (by decide)
      (.tag (by decide) (.cons (hK key) (.cons (hV fromValue) (.cons (hV toValue) .nil)))) ?_
    rintro fs ⟨htyp, ⟨w₁, hw₁, h₁⟩, ⟨w₂, hw₂, h₂⟩, ⟨w₃, hw₃, h₃⟩, -⟩
    rw [deserialize, instDeserializeWireCommand]
    simp only [removeKey, lookup_remove, String.reduceEq, if_false, htyp, hw₁, h₁, hw₂, h₂, hw₃, h₃]
    rfl

section

variable {NodeID Cmd : Type} [Serialize Cmd] [Deserialize Cmd]

theorem codes_command (hK : ∀ key : K, Codes 1 key key) (hV : ∀ value : V, Codes 1 value value)
    (cmd : Command NodeID K V) : Codes 2 cmd (wire cmd) where
  writable := (codes_wireCommand hK hV cmd.inner).writable
  reads v h := by
    have hread : deserialize v = .ok cmd.inner := (codes_wireCommand hK hV cmd.inner).reads v h
    rw [deserialize, instDeserializeCommand]
    simp only [hread]
    rfl

theorem codes_logEntry {e e' : LogEntry Cmd} (hcmd : Codes 2 e.cmd e'.cmd)
    (hterm : Codes 1 e.term e'.term) : Codes 3 e e' := by
  refine codes_ofFields ["c", "t"] rfl rfl (by decide)
    (.cons hcmd (.cons (hterm.mono (by decide)) .nil)) ?_
  rintro fs ⟨⟨w₁, hw₁, h₁⟩, ⟨w₂, hw₂, h₂⟩, -⟩
  rw [deserialize, instDeserializeLogEntry]
  simp only [removeKey, lookup_remove, String.reduceEq, if_false, hw₁, h₁, hw₂, h₂]
  rfl

theorem codes_log [Wire Cmd] (hcmd : ∀ cmd : Cmd, Codes 2 cmd (wire cmd)) {l : Log Cmd}
    (h : ∀ e ∈ l.inner, e.term < 2 ^ 64) : Codes 4 l l.wire := by
  have hinner : Codes 4 l.inner (l.inner.map LogEntry.wire) := by
    refine codes_list (List.forall₂_map_right_iff.mpr (List.forall₂_same.mpr fun e he => ?_))
    exact codes_logEntry (hcmd e.cmd) (codes_nat (h e he))
  refine ⟨hinner.writable, fun v hv => ?_⟩
  have hread := hinner.reads v hv
  rw [deserialize, instDeserializeLog]
  simp only [hread]
  rfl

end

/-! ## Messages -/

/-- The terms and indexes are those of `u64`s. -/
def RaftMessage.InRange {Cmd : Type} : RaftMessage Cmd → Prop
  | .appendEntries term commitIndex prevLogIndex prevLogTerm entries =>
    term < 2 ^ 64 ∧ (∀ i ∈ commitIndex, (i : ℕ) < 2 ^ 64) ∧ (∀ i ∈ prevLogIndex, (i : ℕ) < 2 ^ 64) ∧
      (∀ t ∈ prevLogTerm, t < 2 ^ 64) ∧ ∀ e ∈ entries.inner, e.term < 2 ^ 64
  | .appendEntriesResponse currentTerm index _ =>
    currentTerm < 2 ^ 64 ∧ ∀ i ∈ index, (i : ℕ) < 2 ^ 64
  | .requestVote candidateTerm lastLogIndex lastLogTerm =>
    candidateTerm < 2 ^ 64 ∧ (∀ i ∈ lastLogIndex, (i : ℕ) < 2 ^ 64) ∧
      ∀ t ∈ lastLogTerm, t < 2 ^ 64
  | .requestVoteResponse term _ => term < 2 ^ 64

theorem codes_index {index : Option LogIndex} (h : ∀ i ∈ index, (i : ℕ) < 2 ^ 64) :
    Codes 1 index index :=
  codes_option fun i hi => ⟨codes_pnat (h i hi), nofun⟩

theorem codes_term {term : Option Term} (h : ∀ t ∈ term, t < 2 ^ 64) : Codes 1 term term :=
  codes_option fun t ht => ⟨codes_nat (h t ht), nofun⟩

theorem codes_raftMessage {Cmd : Type} [Serialize Cmd] [Deserialize Cmd] [Wire Cmd]
    (hcmd : ∀ cmd : Cmd, Codes 2 cmd (wire cmd)) {msg : RaftMessage Cmd} (h : msg.InRange) :
    Codes 5 msg msg.wire := by
  cases msg with
  | appendEntries term commitIndex prevLogIndex prevLogTerm entries =>
    obtain ⟨hterm, hcommit, hindex, hprev, hentries⟩ := h
    refine codes_ofFields ["type", "leader_term", "prev_log_index", "prev_log_term", "entries",
      "leader_commit"] rfl rfl (by decide)
      (.tag (by decide) (.cons ((codes_nat hterm).mono (by decide))
        (.cons ((codes_index hindex).mono (by decide))
          (.cons ((codes_term hprev).mono (by decide)) (.cons (codes_log hcmd hentries)
            (.cons ((codes_index hcommit).mono (by decide)) .nil)))))) ?_
    rintro fs ⟨htyp, ⟨w₁, hw₁, h₁⟩, ⟨w₂, hw₂, h₂⟩, ⟨w₃, hw₃, h₃⟩, ⟨w₄, hw₄, h₄⟩, ⟨w₅, hw₅, h₅⟩, -⟩
    rw [deserialize, instDeserializeRaftMessage]
    simp only [removeKey, lookup_remove, String.reduceEq, if_false, htyp, hw₁, h₁, hw₂, h₂, hw₃, h₃, hw₄,
      h₄, hw₅, h₅]
    rfl
  | appendEntriesResponse currentTerm index success =>
    obtain ⟨hterm, hindex⟩ := h
    refine codes_ofFields ["type", "index", "current_term", "success"] rfl rfl (by decide)
      (.tag (by decide) (.cons ((codes_index hindex).mono (by decide))
        (.cons ((codes_nat hterm).mono (by decide))
          (.cons ((codes_bool success).mono (by decide)) .nil)))) ?_
    rintro fs ⟨htyp, ⟨w₁, hw₁, h₁⟩, ⟨w₂, hw₂, h₂⟩, ⟨w₃, hw₃, h₃⟩, -⟩
    rw [deserialize, instDeserializeRaftMessage]
    simp only [removeKey, lookup_remove, String.reduceEq, if_false, htyp, hw₁, h₁, hw₂, h₂, hw₃, h₃]
    rfl
  | requestVote candidateTerm lastLogIndex lastLogTerm =>
    obtain ⟨hterm, hindex, hlast⟩ := h
    refine codes_ofFields ["type", "candidate_term", "last_log_index", "last_log_term"] rfl rfl
      (by decide) (.tag (by decide) (.cons ((codes_nat hterm).mono (by decide))
        (.cons ((codes_index hindex).mono (by decide))
          (.cons ((codes_term hlast).mono (by decide)) .nil)))) ?_
    rintro fs ⟨htyp, ⟨w₁, hw₁, h₁⟩, ⟨w₂, hw₂, h₂⟩, ⟨w₃, hw₃, h₃⟩, -⟩
    rw [deserialize, instDeserializeRaftMessage]
    simp only [removeKey, lookup_remove, String.reduceEq, if_false, htyp, hw₁, h₁, hw₂, h₂, hw₃, h₃]
    rfl
  | requestVoteResponse term voteGranted =>
    refine codes_ofFields ["type", "term", "vote_granted"] rfl rfl (by decide)
      (.tag (by decide) (.cons ((codes_nat h).mono (by decide))
        (.cons ((codes_bool voteGranted).mono (by decide)) .nil))) ?_
    rintro fs ⟨htyp, ⟨w₁, hw₁, h₁⟩, ⟨w₂, hw₂, h₂⟩, -⟩
    rw [deserialize, instDeserializeRaftMessage]
    simp only [removeKey, lookup_remove, String.reduceEq, if_false, htyp, hw₁, h₁, hw₂, h₂]
    rfl

/-- The IDs and codes are those of `u64`s. -/
def ClientMessage.InRange {K V : Type} : ClientMessage K V → Prop
  | .readRequest _ id | .writeRequest _ _ id | .casRequest _ _ _ id => id < 2 ^ 64
  | .readResponse inReplyTo _ id | .writeResponse inReplyTo id | .casResponse inReplyTo id =>
    inReplyTo < 2 ^ 64 ∧ id < 2 ^ 64
  | .errorResponse inReplyTo id code _ => inReplyTo < 2 ^ 64 ∧ id < 2 ^ 64 ∧ code < 2 ^ 64

theorem codes_clientMessage (hK : ∀ key : K, Codes 1 key key)
    (hV : ∀ value : V, Codes 1 value value) {msg : ClientMessage K V} (h : msg.InRange) :
    Codes 2 msg msg := by
  cases msg with
  | readRequest key id =>
    refine codes_ofFields ["type", "key", "msg_id"] rfl rfl (by decide)
      (.tag (by decide) (.cons (hK key) (.cons (codes_nat h) .nil))) ?_
    rintro fs ⟨htyp, ⟨w₁, hw₁, h₁⟩, ⟨w₂, hw₂, h₂⟩, -⟩
    rw [deserialize, instDeserializeClientMessage]
    simp only [removeKey, lookup_remove, String.reduceEq, if_false, htyp, hw₁, h₁, hw₂, h₂]
    rfl
  | writeRequest key value id =>
    refine codes_ofFields ["type", "key", "value", "msg_id"] rfl rfl (by decide)
      (.tag (by decide) (.cons (hK key) (.cons (hV value) (.cons (codes_nat h) .nil)))) ?_
    rintro fs ⟨htyp, ⟨w₁, hw₁, h₁⟩, ⟨w₂, hw₂, h₂⟩, ⟨w₃, hw₃, h₃⟩, -⟩
    rw [deserialize, instDeserializeClientMessage]
    simp only [removeKey, lookup_remove, String.reduceEq, if_false, htyp, hw₁, h₁, hw₂, h₂, hw₃, h₃]
    rfl
  | casRequest key fromValue toValue id =>
    refine codes_ofFields ["type", "key", "from", "to", "msg_id"] rfl rfl (by decide)
      (.tag (by decide) (.cons (hK key) (.cons (hV fromValue) (.cons (hV toValue)
        (.cons (codes_nat h) .nil))))) ?_
    rintro fs ⟨htyp, ⟨w₁, hw₁, h₁⟩, ⟨w₂, hw₂, h₂⟩, ⟨w₃, hw₃, h₃⟩, ⟨w₄, hw₄, h₄⟩, -⟩
    rw [deserialize, instDeserializeClientMessage]
    simp only [removeKey, lookup_remove, String.reduceEq, if_false, htyp, hw₁, h₁, hw₂, h₂, hw₃, h₃,
      hw₄, h₄]
    rfl
  | readResponse inReplyTo value id =>
    obtain ⟨hreply, hid⟩ := h
    refine codes_ofFields ["type", "in_reply_to", "value", "msg_id"] rfl rfl (by decide)
      (.tag (by decide) (.cons (codes_nat hreply) (.cons (hV value) (.cons (codes_nat hid) .nil)))) ?_
    rintro fs ⟨htyp, ⟨w₁, hw₁, h₁⟩, ⟨w₂, hw₂, h₂⟩, ⟨w₃, hw₃, h₃⟩, -⟩
    rw [deserialize, instDeserializeClientMessage]
    simp only [removeKey, lookup_remove, String.reduceEq, if_false, htyp, hw₁, h₁, hw₂, h₂, hw₃, h₃]
    rfl
  | writeResponse inReplyTo id =>
    obtain ⟨hreply, hid⟩ := h
    refine codes_ofFields ["type", "in_reply_to", "msg_id"] rfl rfl (by decide)
      (.tag (by decide) (.cons (codes_nat hreply) (.cons (codes_nat hid) .nil))) ?_
    rintro fs ⟨htyp, ⟨w₁, hw₁, h₁⟩, ⟨w₂, hw₂, h₂⟩, -⟩
    rw [deserialize, instDeserializeClientMessage]
    simp only [removeKey, lookup_remove, String.reduceEq, if_false, htyp, hw₁, h₁, hw₂, h₂]
    rfl
  | casResponse inReplyTo id =>
    obtain ⟨hreply, hid⟩ := h
    refine codes_ofFields ["type", "in_reply_to", "msg_id"] rfl rfl (by decide)
      (.tag (by decide) (.cons (codes_nat hreply) (.cons (codes_nat hid) .nil))) ?_
    rintro fs ⟨htyp, ⟨w₁, hw₁, h₁⟩, ⟨w₂, hw₂, h₂⟩, -⟩
    rw [deserialize, instDeserializeClientMessage]
    simp only [removeKey, lookup_remove, String.reduceEq, if_false, htyp, hw₁, h₁, hw₂, h₂]
    rfl
  | errorResponse inReplyTo id code text =>
    obtain ⟨hreply, hid, hcode⟩ := h
    refine codes_ofFields ["type", "in_reply_to", "msg_id", "code", "text"] rfl rfl (by decide)
      (.tag (by decide) (.cons (codes_nat hreply) (.cons (codes_nat hid) (.cons (codes_nat hcode)
        (.cons (codes_string text) .nil))))) ?_
    rintro fs ⟨htyp, ⟨w₁, hw₁, h₁⟩, ⟨w₂, hw₂, h₂⟩, ⟨w₃, hw₃, h₃⟩, ⟨w₄, hw₄, h₄⟩, -⟩
    rw [deserialize, instDeserializeClientMessage]
    simp only [removeKey, lookup_remove, String.reduceEq, if_false, htyp, hw₁, h₁, hw₂, h₂, hw₃, h₃,
      hw₄, h₄]
    rfl

/-- The names of the variants of Raft messages. -/
def raftTypes : List String :=
  ["append_entries", "append_entries_response", "request_vote", "request_vote_response"]

theorem deserialize_raft_error {Cmd : Type} [Deserialize Cmd] {fs : Entries} {typ : String}
    (h : fs.lookup "type" = some (.string typ)) (hne : typ ∉ raftTypes) :
    (deserialize (.object fs) : Except DeserializeError (RaftMessage Cmd)) =
      invalidObject (fs.remove "type") := by
  simp only [raftTypes, List.mem_cons, List.not_mem_nil, or_false, not_or] at hne
  rw [deserialize, instDeserializeRaftMessage]
  simp only [removeKey, h]
  split
  · next htyp => exact absurd (Value.string.inj (Option.some.inj htyp)) hne.1
  · next htyp => exact absurd (Value.string.inj (Option.some.inj htyp)) hne.2.1
  · next htyp => exact absurd (Value.string.inj (Option.some.inj htyp)) hne.2.2.1
  · next htyp => exact absurd (Value.string.inj (Option.some.inj htyp)) hne.2.2.2
  · rfl

omit [Deserialize K] [Deserialize V] in
/-- The variants of client messages have other names than those of Raft messages. -/
theorem client_type {v : Value} {msg : ClientMessage K V} (h : Same (serialize msg) v) :
    ∃ fs typ, v = .object fs ∧ fs.lookup "type" = some (.string typ) ∧ typ ∉ raftTypes := by
  have htype {es : Entries} {typ : String} (hne : typ ∉ raftTypes)
      (hnodup : ((("type", serialize typ) :: es).map Prod.fst).Nodup)
      (h : Same (.ofFields (("type", serialize typ) :: es)) v) :
      ∃ fs typ, v = .object fs ∧ fs.lookup "type" = some (.string typ) ∧ typ ∉ raftTypes := by
    obtain ⟨fs, rfl, hfs⟩ := exists_fields hnodup h
    obtain ⟨w, hw, hsame⟩ := hfs _ List.mem_cons_self
    cases hsame
    exact ⟨fs, typ, rfl, hw, hne⟩
  cases msg <;> exact htype (by decide) (by simp) h

def Message.wire {K V Cmd : Type} [Wire Cmd] : Message K V Cmd → Message K V Cmd
  | .raft msg => .raft msg.wire
  | .client msg => .client msg

def Message.InRange {K V Cmd : Type} : Message K V Cmd → Prop
  | .raft msg => msg.InRange
  | .client msg => msg.InRange

section

variable {Cmd : Type} [Serialize Cmd] [Deserialize Cmd] [Wire Cmd]

theorem codes_message (hK : ∀ key : K, Codes 1 key key) (hV : ∀ value : V, Codes 1 value value)
    (hcmd : ∀ cmd : Cmd, Codes 2 cmd (wire cmd)) {msg : Message K V Cmd} (h : msg.InRange) :
    Codes 5 msg msg.wire := by
  cases msg with
  | raft msg =>
    have hcodes : Codes 5 msg msg.wire := codes_raftMessage hcmd h
    refine ⟨hcodes.writable, fun v hv => ?_⟩
    have hread := hcodes.reads v hv
    rw [deserialize, instDeserializeMessage]
    simp only [hread]
    rfl
  | client msg =>
    have hcodes : Codes 2 msg msg := codes_clientMessage hK hV h
    refine ⟨hcodes.writable.mono (by decide), fun v hv => ?_⟩
    have hread := hcodes.reads v hv
    obtain ⟨fs, typ, rfl, htyp, hne⟩ := client_type hv
    have hraft : (deserialize (.object fs) : Except DeserializeError (RaftMessage Cmd)) =
        .error (.invalidValue (.object (Entries.remove fs "type"))) :=
      deserialize_raft_error htyp hne
    rw [deserialize, instDeserializeMessage]
    simp only [hread, hraft]
    rfl

end

/-! ## Lines -/

section

variable {B : Type} [Serialize B] [Deserialize B] {msg : MessageEnvelope B} {body : B} {d : ℕ}

theorem codes_envelope (hd : 1 ≤ d) (h : Codes d msg.body body) :
    Codes (d + 1) msg ⟨msg.source, msg.destination, body⟩ := by
  refine codes_ofFields ["src", "dest", "body"] rfl rfl (by decide)
    (.cons ((codes_string msg.source).mono hd) (.cons ((codes_string msg.destination).mono hd)
      (.cons h .nil))) ?_
  rintro fs ⟨⟨w₁, hw₁, h₁⟩, ⟨w₂, hw₂, h₂⟩, ⟨w₃, hw₃, h₃⟩, -⟩
  rw [deserialize, instDeserializeMessageEnvelope]
  simp only [removeKey, lookup_remove, String.reduceEq, if_false, hw₁, h₁, hw₂, h₂, hw₃, h₃]
  rfl

theorem splitLine_append {w rest : List UInt8} (h : ∀ b ∈ w, 0x20 ≤ b) :
    splitLine (w ++ ascii '\n' :: rest) = (w ++ [ascii '\n'], rest) := by
  induction w with
  | nil => rfl
  | cons b w ih =>
    obtain ⟨hb, hw⟩ := List.forall_mem_cons.mp h
    have hne : b ≠ ascii '\n' := by
      rintro rfl
      exact absurd hb (by decide)
    rw [List.cons_append, splitLine, if_neg hne, ih hw]
    rfl

theorem read_line {M : Type} [Serialize M] [Deserialize M] {x y : M} {v : Value}
    (h : Codes d x y) (hd : d ≤ 255) (hv : Same (serialize x) v) (rest : List UInt8) :
    read M ⟨asBytes v.print ++ ascii '\n' :: rest, ""⟩ = (.ok y, ⟨rest, ""⟩) := by
  obtain ⟨hprintable, hplain⟩ := h.printable hd hv
  have hutf8 : String.fromUTF8? (asBytes v.print ++ [ascii '\n']).toByteArray =
      some (v.print ++ "\n") := by
    rw [fromUTF8?_eq_some_iff_asBytes, asBytes_append]
    rfl
  have hbytes : asBytes ("" ++ (v.print ++ "\n")) = asBytes v.print ++ [ascii '\n'] := by
    rw [String.empty_append, asBytes_append]
    rfl
  have hparse : parse (asBytes v.print ++ [ascii '\n']) = .ok v :=
    parse_print hprintable hplain (List.forall_mem_singleton.mpr (.inr (.inr (.inl rfl))))
  rw [read, readLine, splitLine_append (le_print hprintable hplain)]
  simp only [hutf8, hbytes, hparse, h.reads v hv]

theorem read_end (M : Type) [Deserialize M] :
    ∃ e, read M ⟨[], ""⟩ = (.error (.invalidJson e), ⟨[], ""⟩) := by
  have hutf8 : String.fromUTF8? ([] : List UInt8).toByteArray = some "" := by
    rw [fromUTF8?_eq_some_iff_asBytes, asBytes_empty]
  have hfails : (parse []).isOk = false := by decide +kernel
  cases hparse : parse [] with
  | ok v =>
    rw [hparse] at hfails
    cases hfails
  | error e =>
    refine ⟨e, ?_⟩
    rw [read, readLine, splitLine]
    simp only [hutf8, String.append_empty, asBytes_empty, hparse]

end

def MessageEnvelope.wire {K V Cmd : Type} [Wire Cmd] (msg : MessageEnvelope (Message K V Cmd)) :
    MessageEnvelope (Message K V Cmd) :=
  { msg with body := msg.body.wire }

section

variable {Cmd : Type} [Serialize Cmd] [Deserialize Cmd] [Wire Cmd]

theorem readAll_send (hK : ∀ key : K, Codes 1 key key) (hV : ∀ value : V, Codes 1 value value)
    (hcmd : ∀ cmd : Cmd, Codes 2 cmd (wire cmd))
    {msgs : List (Iteration × MessageEnvelope (Message K V Cmd))}
    (hrange : ∀ m ∈ msgs, m.2.body.InRange) (hself : ∀ m ∈ msgs, m.2.source ≠ m.2.destination)
    {fuel : ℕ} (hfuel : msgs.length < fuel) : ∃ out e,
    msgs.mapM (fun m => send m.1 m.2) = .ok out ∧
      readAll (MessageEnvelope (Message K V Cmd)) fuel ⟨out.flatten, ""⟩ =
        (msgs.map fun m => m.2.wire, some (.invalidJson e), ⟨[], ""⟩) := by
  obtain ⟨fuel, rfl⟩ : ∃ n, fuel = n + 1 := Nat.exists_eq_add_one_of_ne_zero (Nat.ne_zero_of_lt hfuel)
  induction msgs generalizing fuel with
  | nil =>
    obtain ⟨e, he⟩ := read_end (MessageEnvelope (Message K V Cmd))
    refine ⟨[], e, rfl, ?_⟩
    rw [List.flatten_nil, readAll, he]
    rfl
  | cons m msgs ih =>
    obtain ⟨order, msg⟩ := m
    obtain ⟨hrange₁, hrange⟩ := List.forall_mem_cons.mp hrange
    obtain ⟨hself₁, hself⟩ := List.forall_mem_cons.mp hself
    have hfuel : msgs.length < fuel := Nat.lt_of_succ_lt_succ hfuel
    obtain ⟨fuel, rfl⟩ := Nat.exists_eq_add_one_of_ne_zero (Nat.ne_zero_of_lt hfuel)
    obtain ⟨out, e, hout, hread⟩ := ih hrange hself fuel hfuel
    have hsend : send order msg =
        .ok (asBytes (order.reorder (serialize msg)).print ++ [ascii '\n']) :=
      if_neg hself₁
    have hcodes : Codes 6 msg msg.wire :=
      codes_envelope (by decide) (codes_message hK hV hcmd hrange₁)
    have hline := read_line hcodes (by decide) (order.same (serialize msg)) out.flatten
    refine ⟨_ :: out, e, by rw [List.mapM_cons, hsend, hout]; rfl, ?_⟩
    rw [List.flatten_cons, List.append_assoc, List.singleton_append, readAll, hline]
    simp only [hread]
    rfl

end

/-! ## Keys and values -/

/-- The types for keys and for values. -/
inductive Scalar where
  | u64
  | i64
  | string

def Scalar.Carrier : Scalar → Type
  | .u64 => UInt64
  | .i64 => Int64
  | .string => String

instance : (t : Scalar) → Serialize t.Carrier
  | .u64 => inferInstanceAs (Serialize UInt64)
  | .i64 => inferInstanceAs (Serialize Int64)
  | .string => inferInstanceAs (Serialize String)

instance : (t : Scalar) → Deserialize t.Carrier
  | .u64 => inferInstanceAs (Deserialize UInt64)
  | .i64 => inferInstanceAs (Deserialize Int64)
  | .string => inferInstanceAs (Deserialize String)

theorem codes_scalar (t : Scalar) (x : t.Carrier) : Codes 1 x x := by
  cases t with
  | u64 => exact codes_uint64 x
  | i64 => exact codes_int64 x
  | string => exact codes_string x

/-- Messages that were sent are read in the order in which they were sent, each as a message of the
same kind, and with commands without the fields for replies. After the last one there is nothing
left to read. -/
theorem readAll_sent (k v : Scalar)
    {msgs : List (Iteration ×
      MessageEnvelope (Message k.Carrier v.Carrier (Command String k.Carrier v.Carrier)))}
    (hrange : ∀ m ∈ msgs, m.2.body.InRange) (hself : ∀ m ∈ msgs, m.2.source ≠ m.2.destination)
    {fuel : ℕ} (hfuel : msgs.length < fuel) : ∃ out e,
    msgs.mapM (fun m => send m.1 m.2) = .ok out ∧
      readAll (MessageEnvelope (Message k.Carrier v.Carrier (Command String k.Carrier v.Carrier)))
          fuel ⟨out.flatten, ""⟩ =
        (msgs.map fun m => m.2.wire, some (.invalidJson e), ⟨[], ""⟩) :=
  readAll_send (codes_scalar k) (codes_scalar v)
    (codes_command (codes_scalar k) (codes_scalar v)) hrange hself hfuel

namespace Example

/-- The outermost map from the last field to the first. -/
def backwards : Iteration where
  reorder
    | .object entries => .object entries.reverse
    | v => v
  same
    | .object entries => by
      have hreverse : ∀ es : Entries, Shuffled Same es es.reverse := by
        intro es
        induction es with
        | nil => exact .nil
        | cons e es ih =>
          rw [List.reverse_cons]
          exact .cons (.refl e.2) (by rwa [List.append_nil])
      exact .object (hreverse entries)
    | .string _ | .number _ | .array _ | .bool _ | .null => .refl _

/-- A command to be answered, and an error with a newline in its text. -/
def mails : List (Iteration ×
    MessageEnvelope (Message UInt64 String (Command String UInt64 String))) :=
  [(backwards, ⟨"n1", "n2", .raft (.appendEntries 3 none (some 5) none
      ⟨[⟨⟨.write 7 "\"", some 1, some 2, some "c1", true⟩, 2⟩]⟩)⟩),
    (backwards, ⟨"n1", "c1", .client (.errorResponse 2 1 20 "no such\nkey")⟩)]

theorem readAll_mails : ∃ out e, mails.mapM (fun m => send m.1 m.2) = .ok out ∧
    readAll (MessageEnvelope (Message UInt64 String (Command String UInt64 String))) 3
        ⟨out.flatten, ""⟩ =
      ([⟨"n1", "n2", .raft (.appendEntries 3 none (some 5) none
          ⟨[⟨⟨.write 7 "\"", none, none, none, false⟩, 2⟩]⟩)⟩,
        ⟨"n1", "c1", .client (.errorResponse 2 1 20 "no such\nkey")⟩],
        some (.invalidJson e), ⟨[], ""⟩) := by
  have hrange : ∀ m ∈ mails, m.2.body.InRange := by
    simp [mails, Message.InRange, RaftMessage.InRange, ClientMessage.InRange]
  have hself : ∀ m ∈ mails, m.2.source ≠ m.2.destination := by
    simp [mails]
  exact readAll_sent .u64 .string hrange hself (by decide)

end Example

end Miniraft
