import SysProg.MufaFs.Refinement
import SysProg.Mufash.Letters

/-!
# The shell of the file system

`parseCommands` reads a line, splits it as `mufash` does, and passes the words of the first command
to `built_in_func`.  A word that is no command is `ls`, since the map of the commands makes up a zero
for it.  `reformat` is left out: it makes a new image under the mounted volume.

* `argv`: the words of a line, as arguments;
* `request`, `parseLine`: what a line asks for, and what it prints;
* `FileSystem.Prints`: the same shell over the abstract file system;
* `shell_refines`: what a session prints, the abstract shell prints.
-/

namespace MufaFs

open ByteFile FirstFit Instance Listings

/-! ### The words of a line -/

/-- A line that `readline` returns, a C string. -/
abbrev Line := {buf : List Byte // 0 ∉ buf}

/-- The characters of a line. -/
def Line.text (buf : Line) : Mufash.Text := buf.1.map Char.ofUInt8

theorem toUInt8_ofUInt8 (b : Byte) : (Char.ofUInt8 b).toUInt8 = b := by
  show (b.toUInt32).toUInt8 = b
  simp

/-- What the lexer makes of a line are arguments. -/
theorem isArg_of_parseCommands {buf : Line} {args : List Mufash.Text}
    (hargs : Mufash.parseCommands buf.text = some args) {arg : Mufash.Text} (harg : arg ∈ args) :
    IsArg (arg.map Char.toUInt8) := by
  have hline : ∀ c ∈ buf.text, c.toUInt8 ≠ 0 := by
    intro c hc
    obtain ⟨b, hb, rfl⟩ := List.mem_map.1 hc
    rw [toUInt8_ofUInt8]
    rintro rfl
    exact buf.2 hb
  have hword : ∀ w : Mufash.Text, (∀ c ∈ w, c.toUInt8 ≠ 0) → 0 ∉ w.map Char.toUInt8 := by
    intro w hw hmem
    obtain ⟨c, hc, hzero⟩ := List.mem_map.1 hmem
    exact hw c hc hzero
  refine isArg_iff.2 ?_
  rcases Mufash.forall_mem_parseCommands hargs hline arg harg with h | ⟨w, hw, rfl⟩
  · exact Or.inl (hword arg h)
  · exact Or.inr ⟨w.map Char.toUInt8, hword w hw, by rw [List.map_append]; rfl⟩

/-- `cmds[0].args`. -/
def argv (buf : Line) : Option (List Arg) :=
  match h : Mufash.parseCommands buf.text with
  | none => none
  | some args =>
      some (args.attach.map fun a => ⟨a.1.map Char.toUInt8, isArg_of_parseCommands h a.2⟩)

/-! ### Commands -/

/-- `enum class command`. -/
inductive Command
  | ls
  | cd
  | cat
  | mkdir
  | touch
  | write
  | rm
  | reformat
  deriving DecidableEq

/-- The map `built_in_commands`. -/
def builtInCommands : List (List Byte × Command) :=
  [(ascii "ls", .ls), (ascii "cd", .cd), (ascii "cat", .cat), (ascii "mkdir", .mkdir),
    (ascii "touch", .touch), (ascii "write", .write), (ascii "rm", .rm),
    (ascii "reformat", .reformat)]

/-- `built_in_commands[word]`: a word that is no key is given the value zero. -/
def builtInCommand (word : List Byte) : Command :=
  ((builtInCommands.find? (·.1 = word)).map Prod.snd).getD .ls

/-- What a line asks for. -/
inductive Request
  | ls
  | cat (name : Arg)
  | cmd (c : Cmd)

/-- The `switch` of `built_in_func`; `none` where a word is missing. -/
def request (argv : List Arg) : Option Request := do
  let word ← argv[0]?
  match builtInCommand word.1 with
  | .ls => some .ls
  | .cd => argv[1]?.map fun name => .cmd (.cd name)
  | .cat => argv[1]?.map .cat
  | .mkdir => argv[1]?.map fun name => .cmd (.mkdir name)
  | .touch => argv[1]?.map fun name => .cmd (.touch name)
  | .write => do
      let name ← argv[1]?
      let data ← argv[2]?
      some (.cmd (.write name data))
  | .rm => argv[1]?.map fun name => .cmd (.rm name)
  | .reformat => none

/-- What a line asks for. -/
def Line.request (buf : Line) : Option Request := (argv buf).bind MufaFs.request

/-- A text and the end of the line. -/
def endl (text : List Byte) : List Byte := text ++ [10]

/-- What a request prints to `stdout`, and the volume after it. -/
def Request.exec (fuel : ℕ) (s : Instance) : Request → Option (List Byte × Instance)
  | .ls => (s.getDirEntry s.cwdNode).map fun dir => (dir.flatMap fun v => endl v.1, s)
  | .cat name => (s.readFileNamed name.1).map fun (text, t) => (endl text, t)
  | .cmd c => (builtInFunc fuel s c).map fun t => ([], t)

/-- One turn of the loop of `parseCommands`. -/
def parseLine (fuel : ℕ) (s : Instance) (buf : Line) : Option (List Byte × Instance) :=
  buf.request.bind (Request.exec fuel s)

/-- The line is run in `s`, prints the text and leaves the volume in `t`. -/
def Prints (s : Instance) (l : Line × List Byte) (t : Instance) : Prop :=
  ∃ fuel, parseLine fuel s l.1 = some (l.2, t)

/-- The shell over the abstract file system. -/
def Request.interpret (fs : FileSystem) : Request → List Byte × FileSystem
  | .ls => (fs.ls.flatMap endl, fs)
  | .cat name => (endl (fs.cat name.1).1, (fs.cat name.1).2)
  | .cmd c => ([], fs.exec c)

/-- The line is run in `fs`, prints the text and leaves the file system `fs'`. -/
def FileSystem.Prints (fs : FileSystem) (l : Line × List Byte) (fs' : FileSystem) : Prop :=
  ∃ r, l.1.request = some r ∧ r.interpret fs = (l.2, fs')

/-- A line that lists, that reads, or that asks for an ordinary command. -/
def OrdinaryLine (s : Instance) (buf : Line) : Prop :=
  ∃ r, buf.request = some r ∧ ∀ c, r = .cmd c → Ordinary s c

/-! ### The refinement -/

section Shell

variable {s t : Instance} {fs : FileSystem} {buf : Line} {out name : List Byte} {l : Line × List Byte}

theorem FilesOk.report (h : FilesOk s) (d : Diagnostic) : FilesOk (s.report d) := by
  have hinv : Inv (s.report d) :=
    h.forest.dirs.inv.of_shell h.forest.dirs.inv.cwd_lt s.cwd (s.stderr ++ [d])
  have hdirs : DirsOk (s.report d) :=
    ⟨hinv, h.forest.dirs.root, h.forest.dirs.cwd, h.forest.dirs.parent⟩
  refine h.of_edits (h.forest.of_listings hdirs rfl (fun _ => rfl) fun p dir hdir => ?_) ?_ rfl
    (fun _ => rfl) (fun _ => rfl) (fun p => ?_) fun k => Or.inl ⟨rfl, fun _ _ _ _ => rfl⟩
  · rw [getDirEntry_report] at hdir
    exact Or.inr ⟨dir, hdir, .refl dir⟩
  · intro p hp dir hdir
    rw [getDirEntry_report] at hdir
    exact h.names p hp dir hdir
  · exact (Trims.report d).childrenOf_sublist p

/-- **What `cat` prints** is the content of the file. -/
theorem Refines.cat (hr : Refines s fs) (h : FilesOk s) (name : Arg) :
    ∃ t, s.readFileNamed name.1 = some ((fs.cat name.1).1, t) ∧ FilesOk t ∧
      Refines t (fs.cat name.1).2 := by
  have hinv := h.forest.dirs.inv
  obtain ⟨dir, hdir⟩ := h.readable h.forest.dirs.cwd
  have hitem := hr.item_path h hdir name.1
  have hreport := fun d => And.intro (h.report d) (hr.report h d (h.report d).forest.dirs.inv)
  cases hv : lookup dir name.1 with
  | none =>
    rw [hv] at hitem
    simp only [FileSystem.cat, hitem, Option.map_none]
    exact ⟨_, by simp [readFileNamed, hdir, hv], hreport _⟩
  | some v =>
    obtain ⟨hmem, -, hlt, hsize⟩ := h.listed_lt hdir hv
    obtain ⟨item, his⟩ := h.items v.2
    rw [hv, Option.map_some, his.itemOf_eq hinv] at hitem
    cases his with
    | file htype hstores =>
      -- a listed inode that is no directory is a file
      have hfile : (s.inodes v.2).type = 1 := by
        have hle := hinv.table.type_le v.2 hlt
        have hne := h.forest.populated.occupied _ _ hmem
        omega
      simp only [FileSystem.cat, hitem]
      refine ⟨s, ?_, h, hr⟩
      rw [readFileNamed_of_listed hdir hv hsize hfile, hstores.readFile hinv]
      rfl
    | dir htype _ =>
      simp only [FileSystem.cat, hitem]
      exact ⟨_, by simp [readFileNamed, hdir, hv, deref_of_lt hsize, htype], hreport _⟩

/-- **The step of the shell.** -/
theorem Refines.parseLine (hr : Refines s fs) (h : FilesOk s) (hord : OrdinaryLine s l.1)
    (hline : Prints s l t) :
    FilesOk t ∧ ∃ fs', FileSystem.Prints fs l fs' ∧ Refines t fs' := by
  obtain ⟨r, hreq, hord⟩ := hord
  obtain ⟨fuel, hline⟩ := hline
  rw [MufaFs.parseLine, hreq, Option.bind_some] at hline
  cases r with
  | ls =>
    obtain ⟨dir, hdir, hout⟩ := Option.map_eq_some_iff.1 hline
    obtain ⟨htext, rfl⟩ := Prod.mk.inj hout
    refine ⟨h, fs, ⟨.ls, hreq, ?_⟩, hr⟩
    rw [Request.interpret, hr.ls h hdir, List.flatMap_map, htext]
  | cat name =>
    obtain ⟨u, hread, hu, hru⟩ := hr.cat h name
    rw [Request.exec, hread, Option.map_some, Option.some_inj, Prod.mk.injEq] at hline
    obtain ⟨hout, rfl⟩ := hline
    exact ⟨hu, _, ⟨.cat name, hreq, by rw [Request.interpret, hout]⟩, hru⟩
  | cmd c =>
    obtain ⟨u, hexec, hout⟩ := Option.map_eq_some_iff.1 hline
    obtain ⟨htext, rfl⟩ := Prod.mk.inj hout
    have hc : OrdinaryExec s c u := ⟨⟨fuel, hexec⟩, hord c rfl⟩
    exact ⟨h.exec hc, _, ⟨.cmd c, hreq, by rw [Request.interpret, htext]⟩, hr.exec h hc⟩

/-- **Ordinary lines complete.** -/
theorem FilesOk.prints (h : FilesOk s) (hr : Refines s fs) (hord : OrdinaryLine s buf) :
    ∃ out t, Prints s (buf, out) t := by
  obtain ⟨r, hreq, hord⟩ := hord
  have hline : ∀ fuel, MufaFs.parseLine fuel s buf = r.exec fuel s := fun fuel => by
    rw [MufaFs.parseLine, hreq, Option.bind_some]
  cases r with
  | ls =>
    obtain ⟨dir, hdir⟩ := h.readable h.forest.dirs.cwd
    exact ⟨_, s, 0, by rw [hline, Request.exec, hdir, Option.map_some]⟩
  | cat name =>
    obtain ⟨t, hread, -⟩ := hr.cat h name
    exact ⟨_, t, 0, by rw [hline, Request.exec, hread, Option.map_some]⟩
  | cmd c =>
    obtain ⟨t, fuel, hexec⟩ := h.completes (hord c rfl)
    exact ⟨[], t, fuel, by rw [hline, Request.exec, hexec, Option.map_some]⟩

/-- A line that is run, under the condition `OrdinaryLine`. -/
def OrdinaryPrints (s : Instance) (l : Line × List Byte) (t : Instance) : Prop :=
  OrdinaryLine s l.1 ∧ Prints s l t

/-- **Runs.** -/
theorem Refines.transcript {ls : List (Line × List Byte)} (hrun : Runs.Run OrdinaryPrints s ls t)
    (h : FilesOk s) (hr : Refines s fs) :
    FilesOk t ∧ ∃ fs', Runs.Run FileSystem.Prints fs ls fs' ∧ Refines t fs' := by
  induction hrun generalizing fs with
  | nil s => exact ⟨h, fs, .nil fs, hr⟩
  | cons hl _ ih =>
    obtain ⟨hu, fs₁, hprints, hr₁⟩ := hr.parseLine h hl.1 hl.2
    obtain ⟨ht, fs', hrest, hr'⟩ := ih hu hr₁
    exact ⟨ht, fs', .cons hprints hrest, hr'⟩

/-- **What a session prints, the abstract shell prints.** On a new image, every transcript of ordinary
lines is one of the abstract shell on the empty file system; the volume then shows the abstract file
system, and every ordinary line completes. -/
theorem shell_refines {volume : List Byte} {size : ℕ} {next : UInt16} {img : File} {s₀ : Instance}
    {ls : List (Line × List Byte)} (himg : createDriveImage volume size next = some img)
    (hmount : mount img = some s₀) (hrun : Runs.Run OrdinaryPrints s₀ ls s) :
    (∃ fs, Runs.Run FileSystem.Prints .empty ls fs ∧ Refines s fs) ∧
      ∀ buf, OrdinaryLine s buf → ∃ out t, Prints s (buf, out) t := by
  obtain ⟨h, fs, hfs, hr⟩ := Refines.transcript hrun (.of_image himg hmount) (.of_image himg hmount)
  exact ⟨⟨fs, hfs, hr⟩, fun buf hord => h.prints hr hord⟩

end Shell

/-! ### Two lines -/

/-- `touch a`. -/
def lineTouch : Line := ⟨ascii "touch a", by decide⟩

/-- `ls`. -/
def lineLs : Line := ⟨ascii "ls", by decide⟩

theorem lineTouch_request : lineTouch.request = some (.cmd (.touch argA)) := by rfl

theorem lineLs_request : lineLs.request = some .ls := by rfl

theorem lineTouch_prints : OrdinaryPrints smallVolume (lineTouch, []) touchedVolume := by
  obtain ⟨fuel, htouch⟩ := touchedVolume_exec
  refine ⟨⟨_, lineTouch_request, ?_⟩, fuel, ?_⟩
  · rintro c ⟨⟩
    exact smallVolume_ordinary
  · rw [parseLine, lineTouch_request, Option.bind_some, Request.exec, htouch, Option.map_some]

theorem lineLs_prints : OrdinaryPrints touchedVolume (lineLs, ascii "a\n") touchedVolume := by
  have hls : touchedVolume.getDirEntry touchedVolume.cwdNode = some [(argA.1, 9)] :=
    touchedVolume_getDirEntry
  refine ⟨⟨_, lineLs_request, ?_⟩, 0, ?_⟩
  · rintro c ⟨⟩
  · rw [parseLine, lineLs_request, Option.bind_some, Request.exec, hls, Option.map_some]
    rfl

/-- On the smallest volume, `touch a` and `ls`, which prints `a`. -/
theorem shell_refines_touch_ls :
    (∃ fs, Runs.Run FileSystem.Prints .empty [(lineTouch, []), (lineLs, ascii "a\n")] fs ∧
      Refines touchedVolume fs) ∧
      ∀ buf, OrdinaryLine touchedVolume buf → ∃ out t, Prints touchedVolume (buf, out) t :=
  shell_refines smallVolume_created smallVolume_mounted
    (.cons lineTouch_prints (.cons lineLs_prints (.nil _)))

end MufaFs
