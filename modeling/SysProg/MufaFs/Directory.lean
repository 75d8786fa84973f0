import SysProg.MufaFs.Layout

/-!
# The directory format

A directory is stored as one string `name\0index\0name\0index\0...`, cut into blocks without regard
to entries, and the last block is filled up with zeros.  `get_dir_entry` parses each block on its
own.  `parseChunks bs k data` is what it finds when `data` lies in `k` blocks of `bs` bytes.

* `parseChunks_encodeDir`: an encoding shorter than a block is read back exactly;
* `parseChunks_encodeDir_full`: any longer one makes `strlen` run past the first block;
* `parseChunks_raw`: the content of a file holds no entries;
* `parseChunks_insert`: after a new entry was appended, whatever its name, only entries of the
  list that was stored can be read.
-/

namespace MufaFs

open ByteFile CString

/-- An entry that survives encoding: its name is a nonempty C string and its index fits. -/
def EntryOk (v : Entry) : Prop := v.1 ≠ [] ∧ 0 ∉ v.1 ∧ v.2 < 2 ^ 64

/-- A chunk of data filled up with zeros to the length of a block. -/
def pad (bs : ℕ) (c : List Byte) : List Byte := c ++ List.replicate (bs - c.length) 0

/-- The entries found in `k` blocks of `bs` bytes that hold `data`. -/
def parseChunks (bs : ℕ) : ℕ → List Byte → Option (List Entry)
  | 0, _ => some []
  | k + 1, data => do
      let a ← parseEntries (zstrings (pad bs (data.take bs)))
      let b ← parseChunks bs k (data.drop bs)
      some (a ++ b)

/-- The strings that the entries of a directory are stored as. -/
def dirStrings (dir : List Entry) : List (List Byte) :=
  dir.flatMap fun v => [v.1, decimal v.2]

/-! ### Strings and entries -/

@[simp] theorem encodeDir_nil : encodeDir [] = [] := rfl

@[simp] theorem encodeDir_append (a b : List Entry) :
    encodeDir (a ++ b) = encodeDir a ++ encodeDir b := List.flatMap_append

@[simp] theorem encodeDir_singleton (v : Entry) : encodeDir [v] = encodeEntry v := by
  simp [encodeDir]

theorem zstrings_encodeEntry_append {v : Entry} (hv : 0 ∉ v.1) (t : List Byte) :
    zstrings (encodeEntry v ++ t) = v.1 :: decimal v.2 :: zstrings t := by
  rw [encodeEntry, List.append_assoc, List.cons_append, zstrings_append_nul hv, List.append_assoc,
    List.singleton_append, zstrings_append_nul (nul_not_mem_decimal _)]

theorem zstrings_encodeDir_append {dir : List Entry} (h : ∀ v ∈ dir, 0 ∉ v.1) (t : List Byte) :
    zstrings (encodeDir dir ++ t) = dirStrings dir ++ zstrings t := by
  induction dir with
  | nil => rfl
  | cons v dir ih =>
    have hv := h v List.mem_cons_self
    have ih := ih fun w hw => h w (List.mem_cons_of_mem _ hw)
    rw [encodeDir, List.flatMap_cons, List.append_assoc, zstrings_encodeEntry_append hv]
    exact congrArg (fun ss => v.1 :: decimal v.2 :: ss) ih

theorem parseEntries_cons {v : Entry} (hv : EntryOk v) (ss : List (List Byte)) :
    parseEntries (v.1 :: decimal v.2 :: ss) = (parseEntries ss).map (v :: ·) := by
  obtain ⟨name, i⟩ := v
  obtain ⟨hne, -, hi⟩ := hv
  obtain ⟨c, cs, rfl⟩ := List.exists_cons_of_ne_nil hne
  obtain ⟨d, ds, hd⟩ := List.exists_cons_of_ne_nil (decimal_ne_nil i)
  have hread : readUInt64 (d :: ds) = i := by rw [← hd]; exact readUInt64_decimal hi
  simp only [hd, parseEntries, hread]

theorem parseEntries_dirStrings_append {dir : List Entry} (h : ∀ v ∈ dir, EntryOk v)
    (ss : List (List Byte)) :
    parseEntries (dirStrings dir ++ ss) = (parseEntries ss).map (dir ++ ·) := by
  induction dir with
  | nil => simp [dirStrings]
  | cons v dir ih =>
    have ih := ih fun w hw => h w (List.mem_cons_of_mem _ hw)
    have := parseEntries_cons (h v List.mem_cons_self) (dirStrings dir ++ ss)
    rw [ih, Option.map_map] at this
    exact this

/-- Strings without an empty one among them are scanned past their end. -/
theorem parseEntries_eq_none {ss : List (List Byte)} (h : ∀ s ∈ ss, s ≠ []) :
    parseEntries ss = none := by
  fun_induction parseEntries ss with
  | case1 => rfl
  | case2 => simp at h
  | case3 => rfl
  | case4 => simp at h
  | case5 name addr p _ _ ih =>
    rw [ih fun s hs => h s (List.mem_cons_of_mem _ (List.mem_cons_of_mem _ hs))]
    rfl

/-! ### Blocks of raw data -/

theorem pad_of_le {bs : ℕ} {c : List Byte} (h : bs ≤ c.length) : pad bs c = c := by
  simp [pad, Nat.sub_eq_zero_of_le h]

/-- `IsArg` once more: text without a NUL, possibly with one NUL behind it. -/
theorem isArg_iff {a : List Byte} : IsArg a ↔ 0 ∉ a ∨ ∃ d, 0 ∉ d ∧ a = d ++ [0] := by
  rcases List.eq_nil_or_concat a with rfl | ⟨d, c, rfl⟩
  · simp [IsArg]
  · rw [List.concat_eq_append, IsArg, List.dropLast_concat]
    constructor
    · intro hd
      by_cases hc : c = 0
      · exact Or.inr ⟨d, hd, by rw [hc]⟩
      · exact Or.inl (by simp [hd, Ne.symm hc])
    · rintro (h | ⟨d', hd', h⟩)
      · exact fun hd => h (List.mem_append_left _ hd)
      · rw [(List.append_inj' h rfl).1]
        exact hd'

theorem isArg_nil : IsArg [] := by simp [IsArg]

theorem IsArg.of_infix {a b : List Byte} (h : IsArg b) (hab : a <:+: b) : IsArg a := by
  obtain ⟨s, t, rfl⟩ := hab
  intro h0
  apply h
  rcases List.eq_nil_or_concat a with rfl | ⟨d, c, rfl⟩
  · simp at h0
  · rw [List.concat_eq_append, List.dropLast_concat] at h0
    rw [List.concat_eq_append, List.append_assoc, List.append_assoc]
    rw [List.dropLast_append_of_ne_nil (by simp), List.dropLast_append_of_ne_nil (by simp)]
    exact List.mem_append_right _ (List.mem_append_left _ h0)

/-- A string followed by zeros, and by nothing else, holds no entry. -/
theorem parseEntries_zeros (d : List Byte) (hd : 0 ∉ d) (k : ℕ) :
    parseEntries (zstrings (d ++ List.replicate k 0)) = none ∨
      parseEntries (zstrings (d ++ List.replicate k 0)) = some [] := by
  rcases k with _ | _ | k
  · simp [zstrings_of_not_mem hd, parseEntries]
  · rw [List.replicate_one, zstrings_append_nul hd]
    cases d <;> simp [parseEntries]
  · rw [List.replicate_succ, zstrings_append_nul hd, List.replicate_succ, zstrings_nul]
    cases d <;> simp [parseEntries]

theorem parseEntries_pad_arg (bs : ℕ) {c : List Byte} (hc : IsArg c) :
    parseEntries (zstrings (pad bs c)) = none ∨ parseEntries (zstrings (pad bs c)) = some [] := by
  rcases isArg_iff.1 hc with h | ⟨d, hd, rfl⟩
  · exact parseEntries_zeros c h _
  · have := parseEntries_zeros d hd (bs - (d ++ [0]).length + 1)
    rwa [List.replicate_succ, ← List.singleton_append, ← List.append_assoc] at this

/-- The content of a file holds no entries. -/
theorem parseChunks_raw (bs k : ℕ) {data : List Byte} (h : IsArg data) :
    parseChunks bs k data = none ∨ parseChunks bs k data = some [] := by
  induction k generalizing data with
  | zero => exact Or.inr rfl
  | succ k ih =>
    rw [parseChunks]
    rcases parseEntries_pad_arg bs (h.of_infix (List.take_prefix bs data).isInfix) with
      h1 | h1
    · simp [h1]
    · rcases ih (h.of_infix (List.drop_suffix bs data).isInfix) with h2 | h2 <;> simp [h1, h2]

/-! ### Blocks of a directory -/

/-- **An encoding shorter than a block is read back exactly.** -/
theorem parseChunks_encodeDir {bs : ℕ} {dir : List Entry} (hdir : ∀ v ∈ dir, EntryOk v)
    (hlen : (encodeDir dir).length < bs) : parseChunks bs 1 (encodeDir dir) = some dir := by
  have htake : (encodeDir dir).take bs = encodeDir dir := List.take_of_length_le hlen.le
  obtain ⟨k, hk⟩ : ∃ k, bs - (encodeDir dir).length = k + 1 := ⟨_, (Nat.succ_pred (by omega)).symm⟩
  rw [parseChunks, htake, pad, hk, zstrings_encodeDir_append fun v hv => (hdir v hv).2.1,
    parseEntries_dirStrings_append hdir, zstrings_replicate, List.replicate_succ]
  simp [parseEntries, parseChunks]

theorem ne_nil_of_mem_dirStrings {dir : List Entry} (hdir : ∀ v ∈ dir, EntryOk v)
    {s : List Byte} (hs : s ∈ dirStrings dir) : s ≠ [] := by
  obtain ⟨v, hv, hs⟩ := List.mem_flatMap.1 hs
  simp only [List.mem_cons, List.not_mem_nil, or_false] at hs
  rcases hs with rfl | rfl
  · exact (hdir v hv).1
  · exact decimal_ne_nil _

/-- **An encoding that fills its first block makes `strlen` run past it.** -/
theorem parseChunks_encodeDir_full {bs k : ℕ} {dir : List Entry} (hdir : ∀ v ∈ dir, EntryOk v)
    (hlen : bs ≤ (encodeDir dir).length) : parseChunks bs (k + 1) (encodeDir dir) = none := by
  have hall : zstrings (encodeDir dir) = dirStrings dir := by
    simpa using zstrings_encodeDir_append (fun v hv => (hdir v hv).2.1) []
  have hfirst : parseEntries (zstrings ((encodeDir dir).take bs)) = none := by
    refine parseEntries_eq_none fun s hs => ne_nil_of_mem_dirStrings hdir ?_
    rw [← hall]
    exact (zstrings_take _ _).subset hs
  rw [parseChunks, pad_of_le (by simp [hlen]), hfirst]
  rfl

/-- The rest of an entry behind its name, or behind a NUL inside of its name, holds no entries. -/
theorem parseChunks_tail {bs k i : ℕ} (hbs : 0 < bs) {t : List Byte}
    (ht : t <:+ 0 :: (decimal i ++ [0])) :
    parseChunks bs k t = none ∨ parseChunks bs k t = some [] := by
  have harg : IsArg (decimal i ++ [0]) :=
    isArg_iff.2 (Or.inr ⟨decimal i, nul_not_mem_decimal i, rfl⟩)
  rcases List.suffix_cons_iff.1 ht with rfl | ht
  · cases k with
    | zero => exact Or.inr rfl
    | succ k =>
      obtain ⟨m, rfl⟩ : ∃ m, bs = m + 1 := ⟨bs - 1, by omega⟩
      have hrest := parseChunks_raw (m + 1) k
        (harg.of_infix (List.drop_suffix m (decimal i ++ [0])).isInfix)
      rw [parseChunks, List.take_succ_cons, List.drop_succ_cons, pad, List.cons_append,
        zstrings_nul]
      rcases hrest with h | h <;> simp [parseEntries, h]
  · exact parseChunks_raw _ _ (harg.of_infix ht.isInfix)

/-- The blocks of one entry with an arbitrary name: nothing can be read but this entry, and it only
if the name is a nonempty C string and the entry leaves room for a NUL in the first block. -/
theorem parseChunks_entry {r bs k i : ℕ} (hr : 0 < r) (hbs : 0 < bs) {name : List Byte}
    (hname : IsArg name) (hi : i < 2 ^ 64) {a b : List Entry}
    (ha : parseEntries (zstrings (pad r ((encodeEntry (name, i)).take r))) = some a)
    (hb : parseChunks bs k ((encodeEntry (name, i)).drop r) = some b) :
    b = [] ∧ (a = [] ∨ a = [(name, i)] ∧ EntryOk (name, i) ∧ (encodeEntry (name, i)).length < r) := by
  have htail : ∀ t, t <:+ 0 :: (decimal i ++ [0]) → (encodeEntry (name, i)).drop r <:+ t →
      b = [] := fun t ht hdrop => by
    rcases parseChunks_tail (k := k) hbs (hdrop.trans ht) with h | h <;> simp_all
  rcases isArg_iff.1 hname with h0 | ⟨d, hd, rfl⟩
  · by_cases hne : name = []
    · -- an empty name ends the scan at once
      subst hne
      obtain ⟨m, rfl⟩ : ∃ m, r = m + 1 := ⟨r - 1, by omega⟩
      simp only [encodeEntry, List.nil_append, List.take_succ_cons, pad, List.cons_append,
        zstrings_nul, parseEntries, Option.some.injEq] at ha
      refine ⟨htail _ (List.suffix_refl _) ?_, Or.inl ha.symm⟩
      simpa [encodeEntry] using List.drop_suffix (m + 1) (0 :: (decimal i ++ [0]))
    · -- the chunk holds the entry and a NUL behind it, or it cuts the entry off
      by_cases hlt : (encodeEntry (name, i)).length < r
      · have hok : EntryOk (name, i) := ⟨hne, h0, hi⟩
        have hread : parseChunks r 1 (encodeDir [(name, i)]) = some [(name, i)] :=
          parseChunks_encodeDir (by simpa using hok) (by simpa using hlt)
        rw [encodeDir_singleton, parseChunks, ha] at hread
        rw [List.drop_of_length_le hlt.le] at hb
        rcases parseChunks_raw bs k isArg_nil with h | h
        · simp [h] at hb
        · simp only [parseChunks, Option.bind_eq_bind, Option.bind_some, List.append_nil,
            Option.some.injEq] at hread
          exact ⟨by simpa [h] using hb.symm, Or.inr ⟨hread, hok, hlt⟩⟩
      · have hnone : parseChunks r (0 + 1) (encodeDir [(name, i)]) = none :=
          parseChunks_encodeDir_full (by simpa using ⟨hne, h0, hi⟩) (by simpa using hlt)
        simp [parseChunks, ha] at hnone
  · -- a NUL inside of the name: the empty string behind it ends the scan
    have henc : encodeEntry (d ++ [0], i) = d ++ 0 :: 0 :: (decimal i ++ [0]) := by
      simp [encodeEntry]
    rw [henc] at ha htail ⊢
    -- the chunk ends before that NUL, or behind it
    by_cases hshort : r < d.length + 1
    · rw [List.take_append_of_le_length (by omega), pad_of_le (by simp; omega),
        zstrings_of_not_mem fun h => hd (List.mem_of_mem_take h)] at ha
      simp [parseEntries] at ha
    · obtain ⟨m, rfl⟩ : ∃ m, r = d.length + 1 + m := ⟨r - (d.length + 1), by omega⟩
      have htake : (d ++ 0 :: 0 :: (decimal i ++ [0])).take (d.length + 1 + m) =
          d ++ 0 :: (0 :: (decimal i ++ [0])).take m := by
        rw [show d.length + 1 + m = d.length + (m + 1) by omega, List.take_length_add_append,
          List.take_succ_cons]
      have hdrop : (d ++ 0 :: 0 :: (decimal i ++ [0])).drop (d.length + 1 + m) =
          (0 :: (decimal i ++ [0])).drop m := by
        rw [show d.length + 1 + m = d.length + (m + 1) by omega, List.drop_length_add_append,
          List.drop_succ_cons]
      refine ⟨htail _ (List.suffix_refl _) (by rw [hdrop]; exact List.drop_suffix _ _), Or.inl ?_⟩
      rw [htake, pad, List.append_assoc, List.cons_append, zstrings_append_nul hd] at ha
      cases d with
      | nil => simpa [parseEntries] using ha.symm
      | cons c cs =>
        cases m with
        | zero => simp [parseEntries] at ha
        | succ m => simpa [parseEntries] using ha.symm

/-- **After a new entry was appended**, whatever its name, only entries of the list that was stored
can be read, and they take less than a block. -/
theorem parseChunks_insert {bs k i : ℕ} {dir : List Entry} {name : List Byte} {L : List Entry}
    (hdir : ∀ v ∈ dir, EntryOk v) (hlen : (encodeDir dir).length < bs) (hname : IsArg name)
    (hi : i < 2 ^ 64) (h : parseChunks bs k (encodeDir (dir ++ [(name, i)])) = some L) :
    L <+: dir ++ [(name, i)] ∧ (∀ v ∈ L, EntryOk v) ∧ (encodeDir L).length < bs := by
  cases k with
  | zero =>
    obtain rfl : [] = L := by simpa [parseChunks] using h
    exact ⟨List.nil_prefix, by simp, by simpa using Nat.zero_lt_of_lt hlen⟩
  | succ k =>
    obtain ⟨r, hr⟩ : ∃ r, bs = (encodeDir dir).length + (r + 1) := ⟨bs - (encodeDir dir).length - 1,
      by omega⟩
    rw [encodeDir_append, encodeDir_singleton, parseChunks] at h
    obtain ⟨a, ha, h⟩ := Option.bind_eq_some_iff.1 h
    obtain ⟨b, hb, h⟩ := Option.bind_eq_some_iff.1 h
    have hpad : pad bs ((encodeDir dir ++ encodeEntry (name, i)).take bs) =
        encodeDir dir ++ pad (r + 1) ((encodeEntry (name, i)).take (r + 1)) := by
      rw [hr, List.take_length_add_append, pad, pad, List.append_assoc, List.length_append,
        Nat.add_sub_add_left]
    rw [hr, List.drop_length_add_append, ← hr] at hb
    rw [hpad, zstrings_encodeDir_append fun v hv => (hdir v hv).2.1,
      parseEntries_dirStrings_append hdir] at ha
    obtain ⟨a', ha', rfl⟩ := Option.map_eq_some_iff.1 ha
    obtain ⟨rfl, hcase⟩ := parseChunks_entry (Nat.succ_pos r) (by omega) hname hi ha' hb
    obtain rfl : dir ++ a' = L := by simpa using h
    rcases hcase with rfl | ⟨rfl, hok, hlt⟩
    · rw [List.append_nil]
      exact ⟨List.prefix_append _ _, hdir, hlen⟩
    · refine ⟨List.prefix_refl _, ?_, by simp; omega⟩
      intro v hv
      rcases List.mem_append.1 hv with hv | hv
      · exact hdir v hv
      · exact List.mem_singleton.1 hv ▸ hok

end MufaFs
