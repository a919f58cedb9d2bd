import RSearch.Lib.Bytes
import RSearch.Lib.Checked
import RSearch.Lib.Outcome

/-!
# The split bundle: files, metadata and a trailer

A sealed index is one object: the bytes of its files in the order of their names, the metadata as JSON,
its length as eight little-endian bytes, and a magic word.  A reader starts from the last sixteen bytes.
-/

namespace RSearch.Bundle

open List Except Bytes

open Bytes (utf8 fromUtf8Lossy toLe ofLe)
open Checked (u64)

structure FileSpan where
  offset : ℕ
  len : ℕ
  deriving DecidableEq

structure BundleMeta (S : Type) where
  files : List (String × FileSpan)
  split : S

structure MetaJson (S : Type) where
  encode : BundleMeta S → Bytes
  decode : Bytes → Except String (BundleMeta S)

/-- An entry of the index directory: its name as the file system has it, and its contents if it is a
regular file. -/
structure Entry where
  name : Bytes
  file : Option Bytes

inductive BundleError where
  | notFound (name : String)
  | invalidDocument (reason : String)
  deriving DecidableEq

def splitMagic : Bytes := [0x52, 0x53, 0x50, 0x4C, 0x49, 0x54, 0x30, 0x31]

def footerTailLen : ℕ := 16

/-! ### Writing -/

def IsLock (name : String) : Prop := ".lock".toList <:+ name.toList

instance : DecidablePred IsLock := fun name => inferInstanceAs (Decidable (".lock".toList <:+ name.toList))

def bundledNames (dir : List Entry) : List String :=
  (((dir.filter (·.file.isSome)).map fun entry => fromUtf8Lossy entry.name).filter
    (¬IsLock ·)).insertionSort (· ≤ ·)

def openFile (dir : List Entry) (name : String) : Except BundleError Bytes :=
  match (dir.find? (·.name = utf8 name)).bind Entry.file with
  | some contents => .ok contents
  | none => .error (.notFound name)

def copyFiles (dir : List Entry) : List String → ℕ → Except BundleError (Bytes × List (String × FileSpan))
  | [], _ => pure ([], [])
  | name :: names, offset => do
    let contents ← openFile dir name
    let (rest, files) ← copyFiles dir names (offset + contents.length)
    pure (contents ++ rest, (name, ⟨offset, contents.length⟩) :: files)

/-- **Bundle a directory.**  The object, and the footer it holds. -/
def writeBundle {S : Type} (json : MetaJson S) (dir : List Entry) (split : S) :
    Except BundleError (Bytes × BundleMeta S) := do
  let (body, files) ← copyFiles dir (bundledNames dir) 0
  let footer : BundleMeta S := { files, split }
  let metaJson := json.encode footer
  pure (body ++ metaJson ++ toLe 8 metaJson.length ++ splitMagic, footer)

/-! ### Reading -/

def getRange (object : Bytes) (start stop : ℕ) : Bytes := (object.take stop).drop start

def parseFooterTail (tail : Bytes) : Except BundleError ℕ :=
  if tail.length ≠ footerTailLen then
    let got := tail.length
    .error (.invalidDocument s!"footer tail must be {footerTailLen} bytes, got {got}")
  else if (tail.take 16).drop 8 ≠ splitMagic then
    .error (.invalidDocument "not a split file (bad magic)")
  else .ok (ofLe (tail.take 8))

def parseMeta {S : Type} (json : MetaJson S) (metaJson : Bytes) : Except BundleError (BundleMeta S) :=
  match json.decode metaJson with
  | .ok footer => .ok footer
  | .error e => .error (.invalidDocument s!"parsing split meta: {e}")

/-- **Open a split from its tail.** -/
def openSplit {S : Type} (json : MetaJson S) (key : String) (object : Bytes) :
    Checked (Except BundleError (BundleMeta S)) :=
  let size := object.length
  if size < footerTailLen then
    .ok (.error (.invalidDocument s!"split {key} too small ({size} bytes)"))
  else do
    let tailStart ← u64 (size - footerTailLen)
    match parseFooterTail (getRange object tailStart size) with
    | .error e => pure (.error e)
    | .ok metaLen => do
      let room ← u64 (size - footerTailLen)
      if room < metaLen then
        pure (.error (.invalidDocument
          s!"split {key} footer length {metaLen} exceeds object size {size}"))
      else do
        let metaStart ← u64 (room - metaLen)
        let metaEnd ← u64 (metaStart + metaLen)
        pure (parseMeta json (getRange object metaStart metaEnd))

def FileSpan.read (span : FileSpan) (object : Bytes) : Bytes :=
  getRange object span.offset (span.offset + span.len)

theorem getRange_middle {before middle after : Bytes} {start stop : ℕ} (hstart : before.length = start)
    (hstop : start + middle.length = stop) :
    getRange (before ++ (middle ++ after)) start stop = middle := by
  grind [getRange]

/-! ### The layout of the files -/

def layout (contents : String → Bytes) : List String → ℕ → List (String × FileSpan)
  | [], _ => []
  | name :: names, offset =>
    (name, ⟨offset, (contents name).length⟩) :: layout contents names (offset + (contents name).length)

section Layout

variable {contents : String → Bytes} {names : List String} {offset : ℕ}

theorem copyFiles_eq {dir : List Entry} (h : ∀ name ∈ names, openFile dir name = .ok (contents name)) :
    copyFiles dir names offset = .ok (names.flatMap contents, layout contents names offset) := by
  induction names generalizing offset with
  | nil => rfl
  | cons name names ih =>
    obtain ⟨hname, hnames⟩ := forall_mem_cons.mp h
    rw [copyFiles, hname, bind_eq_ok_iff]
    exact ⟨_, rfl, bind_eq_ok_iff.mpr ⟨_, ih hnames, rfl⟩⟩

theorem map_fst_layout : (layout contents names offset).map Prod.fst = names := by
  induction names generalizing offset with
  | nil => rfl
  | cons name names ih => rw [layout, map_cons, ih]

theorem layout_within {file : String × FileSpan} (hfile : file ∈ layout contents names offset) :
    offset ≤ file.2.offset ∧
      file.2.offset + file.2.len ≤ offset + (names.flatMap contents).length := by
  induction names generalizing offset with
  | nil => cases hfile
  | cons name names ih =>
    rw [flatMap_cons, length_append]
    rcases mem_cons.mp hfile with rfl | hrest
    · exact ⟨le_rfl, by simp only; omega⟩
    · grind

theorem layout_covers {i : ℕ} (hlo : offset ≤ i) (hhi : i < offset + (names.flatMap contents).length) :
    ∃ file ∈ layout contents names offset,
      file.2.offset ≤ i ∧ i < file.2.offset + file.2.len := by
  induction names generalizing offset with
  | nil => simp at hhi; omega
  | cons name names ih =>
    rw [flatMap_cons, length_append] at hhi
    by_cases hfirst : i < offset + (contents name).length
    · exact ⟨_, mem_cons_self, hlo, hfirst⟩
    · obtain ⟨file, hfile, hcovers⟩ := ih (not_lt.mp hfirst) (by omega)
      exact ⟨file, mem_cons_of_mem _ hfile, hcovers⟩

theorem layout_apart : (layout contents names offset).Pairwise fun a b =>
    a.2.offset + a.2.len ≤ b.2.offset := by
  induction names generalizing offset with
  | nil => exact .nil
  | cons name names ih => exact .cons (fun file hfile => (layout_within hfile).1) ih

theorem layout_unique {i : ℕ} {a b : String × FileSpan} (ha : a ∈ layout contents names offset)
    (hb : b ∈ layout contents names offset) (hia : a.2.offset ≤ i ∧ i < a.2.offset + a.2.len)
    (hib : b.2.offset ≤ i ∧ i < b.2.offset + b.2.len) : a = b := by
  by_contra hne
  let Apart (a b : String × FileSpan) : Prop :=
    a.2.offset + a.2.len ≤ b.2.offset ∨ b.2.offset + b.2.len ≤ a.2.offset
  have : Std.Symm Apart := ⟨fun _ _ => Or.symm⟩
  have hapart : (layout contents names offset).Pairwise Apart := layout_apart.imp Or.inl
  have : Apart a b := hapart.forall ha hb hne
  omega

theorem read_layout {name : String} (hname : name ∈ names) (before after : Bytes)
    (hbefore : before.length = offset) :
    ∃ span, (layout contents names offset).lookup name = some span ∧
      span.read (before ++ names.flatMap contents ++ after) = contents name := by
  induction names generalizing offset before with
  | nil => cases hname
  | cons first names ih =>
    rw [layout, lookup_cons, flatMap_cons]
    by_cases heq : name = first
    · subst heq
      refine ⟨⟨offset, (contents name).length⟩, by simp, ?_⟩
      grind [getRange_middle, FileSpan.read]
    · have hnames : name ∈ names := (mem_cons.mp hname).resolve_left heq
      obtain ⟨span, hspan, hread⟩ := ih hnames (before ++ contents first) (by rw [length_append, hbefore])
      grind

end Layout

/-! ### The directory of some files -/

/-- A directory that holds files under their names, in the order the file system lists them. -/
def directory (files : List (String × Bytes)) : List Entry :=
  files.map fun (name, contents) => ⟨utf8 name, some contents⟩

theorem utf8_injective : Function.Injective utf8 := by
  intro s t h
  rw [← fromUtf8Lossy_utf8 s, h, fromUtf8Lossy_utf8]

section Directory

variable {files : List (String × Bytes)}

theorem bundledNames_perm (hlock : ∀ file ∈ files, ¬IsLock file.1) :
    (bundledNames (directory files)).Perm (files.map Prod.fst) := by
  have hentries : (directory files).filter (·.file.isSome) = directory files := by
    refine filter_eq_self.mpr ?_
    intro entry hentry
    obtain ⟨file, -, rfl⟩ := mem_map.mp hentry
    rfl
  have hnames : (directory files).map (fun entry => fromUtf8Lossy entry.name) = files.map Prod.fst := by
    rw [directory, map_map]
    exact map_congr_left fun file _ => fromUtf8Lossy_utf8 file.1
  have hkept : (files.map Prod.fst).filter (¬IsLock ·) = files.map Prod.fst := by
    refine filter_eq_self.mpr ?_
    grind
  rw [bundledNames, hentries, hnames, hkept]
  exact perm_insertionSort _ _

theorem openFile_directory (hnames : (files.map Prod.fst).Nodup) {file : String × Bytes}
    (hfile : file ∈ files) : openFile (directory files) file.1 = .ok file.2 := by
  have hfind : (directory files).find? (·.name = utf8 file.1) = some ⟨utf8 file.1, some file.2⟩ := by
    induction files with
    | nil => cases hfile
    | cons first files ih =>
      rw [directory, map_cons, find?_cons]
      rw [map_cons, nodup_cons] at hnames
      rcases mem_cons.mp hfile with rfl | hrest
      · simp
      · have hne : first.1 ≠ file.1 := by
          grind
        have hfalse : decide (utf8 first.1 = utf8 file.1) = false :=
          decide_eq_false fun heq => hne (utf8_injective heq)
        rw [hfalse]
        exact ih hnames.2 hrest
  rw [openFile, hfind]
  rfl

end Directory

/-! ### The trailer -/

def declaredLen (object : Bytes) : ℕ := ofLe ((object.drop (object.length - footerTailLen)).take 8)

/-- **The lengths at the end do not fit the object**: there is no room for a trailer, or not for the
metadata it declares. -/
def Inconsistent (object : Bytes) : Prop :=
  object.length < footerTailLen ∨ object.length - footerTailLen < declaredLen object

section Trailer

variable {S : Type} (json : MetaJson S) (key : String) {object : Bytes}

theorem getRange_tail (object : Bytes) : getRange object (object.length - footerTailLen) object.length
    = object.drop (object.length - footerTailLen) := by
  rw [getRange, take_length]

variable {metaLen : ℕ}

theorem parseFooterTail_eq_ok {tail : Bytes} (h : parseFooterTail tail = .ok metaLen) :
    metaLen = ofLe (tail.take 8) := by
  grind [parseFooterTail]

theorem openSplit_eq (hsize : object.length < 2 ^ 64) (hroom : footerTailLen ≤ object.length) :
    openSplit json key object =
      match parseFooterTail (object.drop (object.length - footerTailLen)) with
      | .error e => .ok (.error e)
      | .ok metaLen =>
        if object.length - footerTailLen < metaLen then
          let size := object.length
          .ok (.error (.invalidDocument s!"split {key} footer length {metaLen} exceeds object size {size}"))
        else .ok (parseMeta json (getRange object (object.length - footerTailLen - metaLen)
          (object.length - footerTailLen))) := by
  have hu64 : u64 ((object.length : ℤ) - footerTailLen) = .ok (object.length - footerTailLen) :=
    Checked.u64_eq_ok (by omega) (by omega)
  rw [openSplit, if_neg (not_lt.mpr hroom), hu64]
  simp only [ok_bind, getRange_tail]
  cases parseFooterTail (object.drop (object.length - footerTailLen)) with
  | error e => rfl
  | ok metaLen =>
    simp only
    split_ifs with hfits
    · rfl
    · have hstart : u64 (((object.length - footerTailLen : ℕ) : ℤ) - metaLen)
          = .ok (object.length - footerTailLen - metaLen) :=
        Checked.u64_eq_ok (by omega) (by omega)
      have hend : u64 (((object.length - footerTailLen - metaLen : ℕ) : ℤ) + metaLen)
          = .ok (object.length - footerTailLen) := Checked.u64_eq_ok (by omega) (by omega)
      simp only [hstart, hend, ok_bind]
      rfl

theorem openSplit_returns (hsize : object.length < 2 ^ 64) : ∃ outcome,
    openSplit json key object = .ok outcome ∧ (Inconsistent object → ∃ e, outcome = .error e) := by
  by_cases hsmall : object.length < footerTailLen
  · exact ⟨_, if_pos hsmall, fun _ => ⟨_, rfl⟩⟩
  rw [openSplit_eq json key hsize (not_lt.mp hsmall)]
  cases htail : parseFooterTail (object.drop (object.length - footerTailLen)) with
  | error e => exact ⟨_, rfl, fun _ => ⟨e, rfl⟩⟩
  | ok metaLen =>
    have hlen : metaLen = declaredLen object := parseFooterTail_eq_ok htail
    by_cases hfits : object.length - footerTailLen < metaLen
    · exact ⟨_, if_pos hfits, fun _ => ⟨_, rfl⟩⟩
    · refine ⟨_, if_neg hfits, ?_⟩
      rintro (hinconsistent | hinconsistent)
      · exact absurd hinconsistent hsmall
      · omega

theorem parseFooterTail_written (hlen : metaLen < 2 ^ 64) :
    parseFooterTail (toLe 8 metaLen ++ splitMagic) = .ok metaLen := by
  have hlength : (toLe 8 metaLen ++ splitMagic).length = footerTailLen := by
    rfl
  have hmagic : ((toLe 8 metaLen ++ splitMagic).take 16).drop 8 = splitMagic := by
    exact drop_append_of_length _ (length_toLe 8 metaLen)
  rw [parseFooterTail, if_neg (not_not.mpr hlength), if_neg (not_not.mpr hmagic),
    take_append_of_length _ (length_toLe 8 metaLen), ofLe_toLe_of_lt hlen]

theorem openSplit_written {body metaJson : Bytes} {footer : BundleMeta S}
    (hobject : object = body ++ metaJson ++ toLe 8 metaJson.length ++ splitMagic)
    (hsize : object.length < 2 ^ 64) (hdecode : json.decode metaJson = .ok footer) :
    openSplit json key object = .ok (.ok footer) := by
  have hlength : object.length = body.length + metaJson.length + footerTailLen := by
    rw [hobject]
    simp only [length_append, length_toLe]
    rfl
  have htail : object.drop (object.length - footerTailLen) = toLe 8 metaJson.length ++ splitMagic := by
    rw [hlength, Nat.add_sub_cancel, hobject, append_assoc]
    grind
  have hmeta : getRange object (object.length - footerTailLen - metaJson.length)
      (object.length - footerTailLen) = metaJson := by
    rw [hlength, Nat.add_sub_cancel, Nat.add_sub_cancel, hobject, append_assoc, append_assoc]
    exact getRange_middle rfl rfl
  rw [openSplit_eq json key hsize (by omega), htail, parseFooterTail_written (by omega)]
  grind [parseMeta]

end Trailer

/-! ### The round trip -/

/-- **The files tile the bytes before `stop`**: each position lies in exactly one of them, and none
reaches past the end. -/
def Tiles (files : List (String × FileSpan)) (stop : ℕ) : Prop :=
  (∀ i < stop, ∃! file, file ∈ files ∧ file.2.offset ≤ i ∧ i < file.2.offset + file.2.len) ∧
    ∀ file ∈ files, file.2.offset + file.2.len ≤ stop

theorem tiles_layout (contents : String → Bytes) (names : List String) :
    Tiles (layout contents names 0) (names.flatMap contents).length := by
  constructor
  · intro i hi
    obtain ⟨file, hfile, hcovers⟩ := @layout_covers contents names 0 i (Nat.zero_le i) (by omega)
    exact ⟨file, ⟨hfile, hcovers⟩, fun other hother => layout_unique hother.1 hfile hother.2 hcovers⟩
  · intro file hfile
    have := (layout_within hfile).2
    omega

/-- **A bundle gives back what was put in.**

For every set of files with distinct names, none of them a lock file, and every metadata record, the
bundle is written; its files tile the bytes before the metadata; and opened through its trailer, where
the encoder gives back the footer, it yields the footer and each file's bytes.  Every object at all is
opened without an overflow, and refused if the lengths at its end do not fit its size. -/
theorem bundle_reads_back {S : Type} (json : MetaJson S) (key : String) :
    (∀ (files : List (String × Bytes)) (split : S), (files.map Prod.fst).Nodup →
      (∀ file ∈ files, ¬IsLock file.1) →
      ∃ object footer, writeBundle json (directory files) split = .ok (object, footer) ∧
        footer.split = split ∧ (footer.files.map Prod.fst).Perm (files.map Prod.fst) ∧
        Tiles footer.files (object.length - footerTailLen - (json.encode footer).length) ∧
        (object.length < 2 ^ 64 → json.decode (json.encode footer) = .ok footer →
          openSplit json key object = .ok (.ok footer) ∧
          ∀ file ∈ files, ∃ span, footer.files.lookup file.1 = some span ∧
            span.read object = file.2)) ∧
    ∀ object : Bytes, object.length < 2 ^ 64 → ∃ outcome, openSplit json key object = .ok outcome ∧
      (Inconsistent object → ∃ e, outcome = .error e) := by
  refine ⟨?_, fun object hsize => openSplit_returns json key hsize⟩
  intro files split hnames hlock
  have hperm := bundledNames_perm hlock
  let contents (name : String) : Bytes := (openFile (directory files) name).toOption.getD []
  have hcontents : ∀ file ∈ files, contents file.1 = file.2 := by
    intro file hfile
    simp only [contents, openFile_directory hnames hfile]
    rfl
  have hopen : ∀ name ∈ bundledNames (directory files),
      openFile (directory files) name = .ok (contents name) := by
    intro name hname
    obtain ⟨file, hfile, rfl⟩ := mem_map.mp (hperm.mem_iff.mp hname)
    grind [openFile_directory]
  let body := (bundledNames (directory files)).flatMap contents
  let footer : BundleMeta S := ⟨layout contents (bundledNames (directory files)) 0, split⟩
  let metaJson := json.encode footer
  let object := body ++ metaJson ++ toLe 8 metaJson.length ++ splitMagic
  have hlength : object.length - footerTailLen - metaJson.length = body.length := by
    have : object.length = body.length + metaJson.length + footerTailLen := by
      simp only [object, length_append, Bytes.length_toLe]
      rfl
    omega
  refine ⟨object, footer, ?_, rfl, ?_, ?_, ?_⟩
  · exact bind_eq_ok_iff.mpr ⟨_, copyFiles_eq hopen, rfl⟩
  · rw [map_fst_layout]
    exact hperm
  · grind [tiles_layout]
  · intro hsize hdecode
    refine ⟨openSplit_written json key rfl hsize hdecode, ?_⟩
    intro file hfile
    have hname : file.1 ∈ bundledNames (directory files) :=
      hperm.mem_iff.mpr (mem_map_of_mem hfile)
    obtain ⟨span, hspan, hread⟩ := @read_layout contents _ 0 _ hname []
      (metaJson ++ (toLe 8 metaJson.length ++ splitMagic)) rfl
    grind

/-! ### Two files -/

def twoFiles : BundleMeta Unit := ⟨[("a", ⟨0, 2⟩), ("b", ⟨2, 1⟩)], ()⟩

def fileText (f : String × FileSpan) : String :=
  "\"" ++ f.1 ++ "\":\x7b\"offset\":" ++ toString f.2.offset ++ ",\"len\":" ++ toString f.2.len ++ "\x7d"

def footerText (m : BundleMeta Unit) : Bytes :=
  Bytes.utf8 ("\x7b\"files\":\x7b" ++ ",".intercalate (m.files.map fileText) ++ "\x7d,\"split\":null\x7d")

def twoFilesJson : MetaJson Unit where
  encode := footerText
  decode text := if text = footerText twoFiles then .ok twoFiles else .error "expected value"

theorem bundle_reads_back_two : ∃ object footer,
    writeBundle twoFilesJson (directory [("b", [3]), ("a", [1, 2])]) () = .ok (object, footer) ∧
      openSplit twoFilesJson "splits/s" object = .ok (.ok footer) ∧
      footer.files.lookup "b" = some ⟨2, 1⟩ := by
  obtain ⟨object, footer, hwrite, -, -, -, hread⟩ := (bundle_reads_back twoFilesJson "splits/s").1
    [("b", [3]), ("a", [1, 2])] () (by decide) (by decide)
  cases hwrite
  exact ⟨_, _, rfl, (hread (by decide) rfl).1, rfl⟩

end RSearch.Bundle
