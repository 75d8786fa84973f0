import SysProg.Lib.CInt
import SysProg.Lib.CString

/-!
# `respond`: one connection of the spell checker

The server reads from a socket, looks up what it has read as one word, and replies.  It does not look
for the newlines between the words: what one `recv` delivers is one word, whatever the client sent.

* `respond dict`: the loop over the results of `recv`, with the replies written and the strings
  passed to `log_queue`;
* `Stream words chunks`: the words, each with a newline, cut into chunks of 1 to 30 bytes;
* `respond_framing_iff`: the replies are the right ones exactly if each chunk holds one word and
  leaves room in the buffer;
* `logged_once_iff`: the log has each record once exactly if there is none but the closing one.
-/

namespace Spellchecker

open ByteFile CInt CString

/-- The bytes of a text. -/
def text (s : String) : List Byte := s.toList.map Char.toUInt8

/-- `%i`. -/
def formatInt (v : ℤ) : List Byte := if v < 0 then text "-" ++ decimal v.natAbs else decimal v.natAbs

/-- The size of the receive buffer. -/
def bufferSize : ℕ := 30

/-- The results of `recv`: bytes, with the time that their lookup takes, `0` or `-1`. -/
inductive Recv
  | data (bytes : List Byte) (microseconds : ℕ)
  | disconnected
  | failed

/-- What a call of `respond` has done: its log text, the replies it has written, and the strings it
has passed to `log_queue`. -/
structure Connection where
  log_txt : List Byte
  replies : List (List Byte)
  logged : List (List Byte)

/-- At the start of the call. -/
def Connection.fresh : Connection := ⟨[], [], []⟩

/-- `log_queue.add(log_txt)`; the text is not cleared. -/
def Connection.log (c : Connection) : Connection := { c with logged := c.logged ++ [c.log_txt] }

/-- `log_txt += s`. -/
def Connection.append (c : Connection) (s : List Byte) : Connection :=
  { c with log_txt := c.log_txt ++ s }

/-- `write(socket, response)`. -/
def Connection.write (c : Connection) (response : List Byte) : Connection :=
  { c with replies := c.replies ++ [response] }

variable (dict : Finset (List Byte))

/-- The string before the first NUL, without white space. -/
def wordOf (bytes : List Byte) : List Byte :=
  (bytes.takeWhile (· ≠ 0)).filter fun c => !isSpace c

/-- `found ? "OK" : "MISSPELLED"`. -/
def verdict (word : List Byte) : List Byte := if word ∈ dict then text "OK" else text "MISSPELLED"

/-- One result of `recv` with bytes.  The NUL behind them is written out of bounds if they fill the
buffer. -/
def receive (c : Connection) (bytes : List Byte) (microseconds : ℕ) : Option Connection :=
  if bytes.length < bufferSize then
    let word := wordOf bytes
    let ok := verdict dict word
    let c := c.append (text "\x7b\n\ttime passed finding: " ++ formatInt (toInt microseconds) ++
      text " microseconds\n")
    let c := c.append (text "\t" ++ word ++ text " " ++ ok ++ text "\n")
    some (c.write (word ++ ok))
  else none

/-- `respond`, with the results of `recv` that it has met so far. -/
def respond (c : Connection) : List Recv → Option Connection
  | [] => some c
  | .data bytes microseconds :: rs => do
      let c ← receive dict c bytes microseconds
      respond c.log rs
  | .disconnected :: _ => some (c.append (text "\tclient disconnected\n\x7d\n")).log
  | .failed :: _ => some (c.append (text "\trecv failed\n\x7d\n")).log

/-- The reply that the protocol promises for a word. -/
def reply (word : List Byte) : List Byte := word ++ verdict dict word

variable {dict} {c c' : Connection} {bytes : List Byte} {word word' : List Byte}

/-! ### Replies -/

/-- The verdict is not part of the word: a reply determines it. -/
theorem reply_injective (dict : Finset (List Byte)) : Function.Injective (reply dict) := by
  have hlast : (text "OK").getLast? ≠ (text "MISSPELLED").getLast? := by decide
  intro word word' h
  unfold reply verdict at h
  split_ifs at h
  · exact List.append_cancel_right h
  · refine absurd (congrArg List.getLast? h) ?_
    rwa [List.getLast?_append_of_ne_nil _ (by decide), List.getLast?_append_of_ne_nil _ (by decide)]
  · refine absurd (congrArg List.getLast? h) ?_
    rw [List.getLast?_append_of_ne_nil _ (by decide), List.getLast?_append_of_ne_nil _ (by decide)]
    exact hlast.symm
  · exact List.append_cancel_right h

/-- What is received is undefined exactly if it fills the buffer, and it is replied to as one word. -/
theorem receive_eq_some_iff {us : ℕ} : receive dict c bytes us = some c' ↔
    bytes.length < bufferSize ∧ c' = ⟨c.log_txt ++ (text "\x7b\n\ttime passed finding: " ++
      formatInt (toInt us) ++ text " microseconds\n") ++ (text "\t" ++ wordOf bytes ++ text " " ++
      verdict dict (wordOf bytes) ++ text "\n"), c.replies ++ [reply dict (wordOf bytes)], c.logged⟩ := by
  unfold receive
  split_ifs with hlen
  · simp only [Option.some.injEq, hlen, true_and]
    exact eq_comm
  · simp [hlen]

/-- The results of `recv` that end a connection. -/
def Recv.Ends : Recv → Prop
  | .data _ _ => False
  | _ => True

variable {reads : List (List Byte × ℕ)} {rest : List Recv}

/-- Results that end the connection write no reply. -/
theorem respond_of_ends (hrest : ∀ r ∈ rest, r.Ends) :
    ∃ c', respond dict c rest = some c' ∧ c'.replies = c.replies := by
  cases rest with
  | nil => exact ⟨c, rfl, rfl⟩
  | cons r rest =>
    cases r with
    | data bytes us => exact (hrest _ List.mem_cons_self).elim
    | disconnected => exact ⟨_, rfl, rfl⟩
    | failed => exact ⟨_, rfl, rfl⟩

/-- Reads that leave room in the buffer are replied to, each as one word. -/
theorem respond_of_room (hrest : ∀ r ∈ rest, r.Ends)
    (hroom : ∀ read ∈ reads, read.1.length < bufferSize) :
    ∃ c', respond dict c (reads.map (fun read => .data read.1 read.2) ++ rest) = some c' ∧
      c'.replies = c.replies ++ reads.map fun read => reply dict (wordOf read.1) := by
  induction reads generalizing c with
  | nil => simpa using respond_of_ends hrest
  | cons read reads ih =>
    obtain ⟨c', hc', hreplies⟩ := ih (c := _)
      fun r hr => hroom r (List.mem_cons_of_mem _ hr)
    refine ⟨c', ?_, ?_⟩
    · rw [List.map_cons, List.cons_append, respond,
        receive_eq_some_iff.2 ⟨hroom _ List.mem_cons_self, rfl⟩]
      exact hc'
    · rw [hreplies]
      simp [Connection.log]

/-- A read that fills the buffer is written to behind its end. -/
theorem room_of_respond
    (h : respond dict c (reads.map (fun read => .data read.1 read.2) ++ rest) = some c') :
    ∀ read ∈ reads, read.1.length < bufferSize := by
  induction reads generalizing c with
  | nil => exact fun _ h => nomatch h
  | cons read reads ih =>
    rw [List.map_cons, List.cons_append, respond] at h
    obtain ⟨c₁, hc₁, h⟩ := Option.bind_eq_some_iff.1 h
    intro r hr
    rcases List.mem_cons.1 hr with rfl | hr
    · exact (receive_eq_some_iff.1 hc₁).1
    · exact ih h r hr

/-! ### Framing -/

/-- The words, each with a newline behind it, cut into chunks as `recv` may deliver them. -/
structure Stream (words chunks : List (List Byte)) : Prop where
  ne_nil : ∀ w ∈ words, w ≠ []
  no_space : ∀ w ∈ words, ∀ c ∈ w, isSpace c = false
  no_nul : ∀ w ∈ words, 0 ∉ w
  length : ∀ chunk ∈ chunks, 1 ≤ chunk.length ∧ chunk.length ≤ bufferSize
  flatten : chunks.flatten = words.flatMap (· ++ [10])

variable {words : List (List Byte)}

theorem Stream.nul_not_mem {chunks : List (List Byte)} (h : Stream words chunks) {chunk : List Byte}
    (hchunk : chunk ∈ chunks) : 0 ∉ chunk := by
  intro h0
  have hmem : 0 ∈ words.flatMap (· ++ [10]) :=
    h.flatten ▸ List.mem_flatten_of_mem hchunk h0
  obtain ⟨w, hw, h0⟩ := List.mem_flatMap.1 hmem
  rcases List.mem_append.1 h0 with h0 | h0
  · exact h.no_nul w hw h0
  · exact absurd h0 (by decide)

theorem wordOf_of_nul_not_mem (h : 0 ∉ bytes) : wordOf bytes = bytes.filter fun c => !isSpace c := by
  have hall : ∀ c ∈ bytes, decide (c ≠ 0) = true := fun c hc =>
    decide_eq_true fun h0 => h (h0 ▸ hc)
  rw [wordOf, List.takeWhile_eq_self_iff.2 hall]

/-- The connection gets the reply of the protocol to each word, in order, and nothing is written out
of bounds. -/
def Answered (dict : Finset (List Byte)) (rs : List Recv) (words : List (List Byte)) : Prop :=
  ∃ c, respond dict .fresh rs = some c ∧ c.replies = words.map (reply dict)

/-- **When the replies are the right ones.** Exactly if no read fills the buffer, and each read holds
one word, whole. -/
theorem respond_framing_iff (h : Stream words (reads.map Prod.fst)) (hrest : ∀ r ∈ rest, r.Ends) :
    Answered dict (reads.map (fun read => .data read.1 read.2) ++ rest) words ↔
      (∀ read ∈ reads, read.1.length < bufferSize) ∧
        reads.map (fun read => read.1.filter fun c => !isSpace c) = words := by
  have hword : ∀ read ∈ reads, wordOf read.1 = read.1.filter fun c => !isSpace c := fun read hr =>
    wordOf_of_nul_not_mem (h.nul_not_mem (List.mem_map_of_mem hr))
  have hmap : reads.map (fun read => reply dict (wordOf read.1)) =
      (reads.map fun read => read.1.filter fun c => !isSpace c).map (reply dict) := by
    rw [List.map_map]
    exact List.map_congr_left fun read hr => congrArg (reply dict) (hword read hr)
  constructor
  · rintro ⟨c, hc, hreplies⟩
    have hroom := room_of_respond hc
    obtain ⟨c', hc', hreplies'⟩ := respond_of_room (c := .fresh) hrest hroom
    obtain rfl : c = c' := Option.some.inj (hc.symm.trans hc')
    refine ⟨hroom, (reply_injective dict).list_map ?_⟩
    rw [← hmap, ← hreplies, hreplies']
    rfl
  · rintro ⟨hroom, hwords⟩
    obtain ⟨c, hc, hreplies⟩ := respond_of_room (c := .fresh) hrest hroom
    refine ⟨c, hc, ?_⟩
    rw [hreplies, hmap, hwords]
    rfl

theorem no_space_of_all (h : words.all fun w => w.all fun c => !isSpace c) :
    ∀ w ∈ words, ∀ c ∈ w, isSpace c = false := by
  intro w hw c hc
  simpa using List.all_eq_true.1 (List.all_eq_true.1 h w hw) c hc

/-- Two words, each in a read of its own. -/
theorem respond_framing_two :
    Answered {text "yes"} ([(text "yes\n", 2), (text "no\n", 3)].map
      (fun read => .data read.1 read.2) ++ [.disconnected]) [text "yes", text "no"] := by
  have hstream : Stream [text "yes", text "no"] ([(text "yes\n", 2), (text "no\n", 3)].map Prod.fst) :=
    ⟨by decide, no_space_of_all rfl, by decide, by decide, by decide⟩
  have hends : ∀ r ∈ [Recv.disconnected], r.Ends := by
    intro r hr
    rw [List.mem_singleton.1 hr]
    trivial
  exact (respond_framing_iff hstream hends).2 ⟨by decide, by decide⟩

/-- Two words in one read are answered as one, and a word of 29 bytes with its newline is written to
behind the buffer. -/
theorem respond_merged_or_full :
    (Stream [text "yes", text "no"] [text "yes\nno\n"] ∧
      ¬Answered {text "yes"} [.data (text "yes\nno\n") 2, .disconnected] [text "yes", text "no"]) ∧
    Stream [List.replicate 29 97] [List.replicate 29 97 ++ [10]] ∧
      respond {text "yes"} .fresh [.data (List.replicate 29 97 ++ [10]) 2] = none := by
  refine ⟨⟨⟨by decide, no_space_of_all rfl, by decide, by decide, by decide⟩, ?_⟩,
    ⟨by decide, no_space_of_all rfl, by decide, by decide, by decide⟩, rfl⟩
  rintro ⟨c, hc, hreplies⟩
  obtain rfl := Option.some.inj hc
  exact absurd hreplies (by decide)

/-! ### The log -/

/-- The record of a lookup. -/
def record (dict : Finset (List Byte)) (read : List Byte × ℕ) : List Byte :=
  text "\x7b\n\ttime passed finding: " ++ formatInt (toInt read.2) ++ text " microseconds\n" ++
    (text "\t" ++ wordOf read.1 ++ text " " ++ verdict dict (wordOf read.1) ++ text "\n")

/-- The record of the end of a connection. -/
def closing : Recv → List Byte
  | .data _ _ => []
  | .disconnected => text "\tclient disconnected\n\x7d\n"
  | .failed => text "\trecv failed\n\x7d\n"

/-- What the loop passes to the log at the lookups: each time all the text so far. -/
def accumulated (dict : Finset (List Byte)) (log_txt : List Byte) :
    List (List Byte × ℕ) → List (List Byte)
  | [] => []
  | read :: reads =>
      (log_txt ++ record dict read) :: accumulated dict (log_txt ++ record dict read) reads

/-- The connection logs each lookup once, in order, and then its end. -/
def LoggedOnce (dict : Finset (List Byte)) (reads : List (List Byte × ℕ)) (r : Recv) : Prop :=
  ∃ c, respond dict .fresh (reads.map (fun read => .data read.1 read.2) ++ [r]) = some c ∧
    c.logged.flatten = (reads.map (record dict)).flatten ++ closing r

variable {r : Recv}

theorem respond_closing (hr : r.Ends) :
    respond dict c [r] = some (c.append (closing r)).log := by
  cases r with
  | data bytes us => exact hr.elim
  | disconnected => rfl
  | failed => rfl

/-- The log text only grows, and nothing of it is logged for the last time before the end. -/
theorem respond_logged (hr : r.Ends)
    (h : respond dict c (reads.map (fun read => .data read.1 read.2) ++ [r]) = some c') :
    c'.logged = c.logged ++ accumulated dict c.log_txt reads ++
      [c.log_txt ++ (reads.map (record dict)).flatten ++ closing r] := by
  induction reads generalizing c with
  | nil =>
    rw [List.map_nil, List.nil_append, respond_closing hr] at h
    rw [← Option.some.inj h]
    simp [Connection.log, Connection.append, accumulated]
  | cons read reads ih =>
    rw [List.map_cons, List.cons_append, respond] at h
    obtain ⟨c₁, hc₁, h⟩ := Option.bind_eq_some_iff.1 h
    obtain ⟨-, rfl⟩ := receive_eq_some_iff.1 hc₁
    have htext : c.log_txt ++ (text "\x7b\n\ttime passed finding: " ++
        formatInt (toInt read.2) ++ text " microseconds\n") ++ (text "\t" ++ wordOf read.1 ++
        text " " ++ verdict dict (wordOf read.1) ++ text "\n") = c.log_txt ++ record dict read := by
      simp only [record, List.append_assoc]
    rw [ih h, Connection.log, htext]
    simp [accumulated, List.append_assoc]

theorem record_ne_nil (read : List Byte × ℕ) : record dict read ≠ [] := by
  have htext : text "\x7b\n\ttime passed finding: " ≠ [] := by decide
  unfold record
  simp [htext]

/-- **When each event is logged once.** Only a connection without lookups logs its record once: every
other one logs its first record again with the next text. -/
theorem logged_once_iff (hr : r.Ends) : LoggedOnce dict reads r ↔ reads = [] := by
  constructor
  · rintro ⟨c, hc, hlogged⟩
    have hall := respond_logged hr hc
    cases reads with
    | nil => rfl
    | cons read reads =>
      -- the last text alone is as long as it should be
      have hlength := congrArg List.length hlogged
      have hne : record dict read ≠ [] := record_ne_nil read
      have hpos := List.length_pos_of_ne_nil hne
      rw [hall] at hlength
      simp only [Connection.fresh, accumulated, List.nil_append, List.flatten_append,
        List.flatten_cons, List.flatten_nil, List.length_append, List.append_nil] at hlength
      omega
  · rintro rfl
    exact ⟨_, respond_closing hr, List.append_nil _⟩

theorem logged_once_closed : LoggedOnce {text "yes"} [] .disconnected :=
  (logged_once_iff (r := .disconnected) trivial).2 rfl

/-- The record of one lookup is logged twice. -/
theorem logged_twice : ∃ c, respond {text "yes"} .fresh [.data (text "yes\n") 2, .disconnected] = some c ∧
    c.logged = [record {text "yes"} (text "yes\n", 2),
      record {text "yes"} (text "yes\n", 2) ++ closing .disconnected] ∧
    ¬LoggedOnce {text "yes"} [(text "yes\n", 2)] .disconnected := by
  refine ⟨_, rfl, by decide, ?_⟩
  rintro ⟨c, hc, hlogged⟩
  obtain rfl := Option.some.inj hc
  exact absurd hlogged (by decide)

end Spellchecker
