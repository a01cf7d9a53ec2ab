import DagSelect.Command.Select

/-!
# What `select` asks the file system for

The link of a block is text out of the data, and the name of a file is made of it. Only a plain name
gets that far: it stays in the directory of the blocks, whereas the loader turns every other link
away before it asks for anything. The answer of `select` is therefore settled by the two files that
it is given and the files with plain names in that directory.
-/

namespace DagSelect

namespace BlockDirectory

/-- A name that neither leads out of a directory nor to a hidden file in it. -/
structure IsPlain (name : String) : Prop where
  ne_empty : name ≠ ""
  slash_notMem : '/' ∉ name.toList
  backslash_notMem : '\\' ∉ name.toList
  dot_notFirst : name.startsWith "." = false

theorem isName_iff {l : Link} : isName l = true ↔ IsPlain l.text := by
  rw [isName]
  constructor
  · intro h
    simp only [Bool.and_eq_true, Bool.not_eq_true', List.contains_eq_mem, decide_eq_false_iff_not,
      String.isEmpty_eq_false_iff] at h
    obtain ⟨⟨⟨hempty, hslash⟩, hbackslash⟩, hdot⟩ := h
    exact ⟨hempty, hslash, hbackslash, hdot⟩
  · intro h
    simp [h.ne_empty, h.slash_notMem, h.backslash_notMem, h.dot_notFirst]

variable {read read' : Reader} {directory : String}

/-- Blocks of different links are in different files. -/
theorem fileName_inj {l l' : Link} : fileName directory l = fileName directory l' ↔ l = l' := by
  refine ⟨fun h => ?_, congrArg _⟩
  obtain ⟨text⟩ := l
  obtain ⟨text'⟩ := l'
  rw [fileName, fileName, join, join] at h
  split at h
  · simpa using h
  · simpa using h

theorem loader_of_not_isPlain {l : Link} (h : ¬ IsPlain l.text) (p : Progress) :
    loader read directory l p = .error (.notFound l) := by
  rw [loader, if_neg fun hname => h (isName_iff.1 hname)]

theorem loader_of_decode {l : Link} (hname : IsPlain l.text) {source : String}
    (hread : read (fileName directory l) = .ok source) {n : Node}
    (hn : DagJson.decode source = .ok n) (p : Progress) : loader read directory l p = .ok n := by
  rw [loader, if_pos (isName_iff.2 hname), hread]
  simp only [hn]

theorem loader_of_notFound {l : Link}
    (hread : IsPlain l.text → read (fileName directory l) = .error .notFound) (p : Progress) :
    loader read directory l p = .error (.notFound l) := by
  by_cases hname : IsPlain l.text
  · rw [loader, if_pos (isName_iff.2 hname), hread hname]
  · exact loader_of_not_isPlain hname p

/-- Readers with the same files of plain names in a directory have the same blocks there. -/
theorem loader_congr
    (h : ∀ name, IsPlain name →
      read (fileName directory ⟨name⟩) = read' (fileName directory ⟨name⟩)) :
    loader read directory = loader read' directory := by
  funext l p
  by_cases hplain : IsPlain l.text
  · rw [loader, loader, h l.text hplain]
  · rw [loader_of_not_isPlain hplain, loader_of_not_isPlain hplain]

end BlockDirectory

namespace Command

variable {read read' : Reader} {file : String}

theorem readNode_congr (h : read file = read' file) : readNode read file = readNode read' file := by
  rw [readNode, readNode, h]

theorem readSelector_congr (h : read file = read' file) :
    readSelector read file = readSelector read' file := by
  rw [readSelector, readSelector, readNode_congr h]

theorem Options.config_congr {o : Options}
    (h : ∀ directory, o.links = some directory → ∀ name, BlockDirectory.IsPlain name →
      read (BlockDirectory.fileName directory ⟨name⟩) =
        read' (BlockDirectory.fileName directory ⟨name⟩)) :
    o.config read = o.config read' := by
  have hloader : o.links.map (BlockDirectory.loader read) =
      o.links.map (BlockDirectory.loader read') :=
    Option.map_congr fun directory hdirectory =>
      BlockDirectory.loader_congr (h directory hdirectory)
  rw [Options.config, Options.config, hloader]

/-- Whatever links the data and the blocks contain, the answer of `select` does not depend on any
other file than the selector, the data and the files of plain names in the directory of the blocks,
if there is one. -/
theorem select_eq_of_reads_eq {read read' : Reader} {o : Options}
    (hselector : read o.selector = read' o.selector) (hfile : read o.file = read' o.file)
    (hblocks : ∀ directory, o.links = some directory → ∀ name, BlockDirectory.IsPlain name →
      read (BlockDirectory.fileName directory ⟨name⟩) =
        read' (BlockDirectory.fileName directory ⟨name⟩))
    (hops : Nat) : select read hops o = select read' hops o := by
  rw [select, select, readSelector_congr hselector, readNode_congr hfile,
    Options.config_congr hblocks]

/-- A file beside the directory, which the data and a block of it have links to. -/
theorem select_eq_of_reads_eq_beside :
    let file (secret : String) (name : String) : String :=
      if name = "blocks/../secret.json" then secret
      else if name = "s" then
        "\x7b\"a\": \x7b\">\": \x7b\"a\": \x7b\">\": \x7b\".\": \x7b\x7d\x7d\x7d\x7d\x7d\x7d"
      else if name = "d" then "[\x7b\"/\": \"x\"\x7d, \x7b\"/\": \"../secret\"\x7d]"
      else "[7, \x7b\"/\": \"../secret\"\x7d]"
    let read (secret : String) : Reader := fun name => .ok (file secret name)
    let o : Options := ⟨"s", "d", some "blocks", false, none, none, false⟩
    let outside := BlockDirectory.fileName "blocks" ⟨"../secret"⟩
    file "[1]" outside ≠ file "[2]" outside ∧
      (select (read "[1]") 3 o).output =
        "\x7b\"path\":\"0/0\",\"reason\":\"matched\",\"node\":7\x7d\n" ∧
      (select (read "[1]") 3 o).status = .failed (.walk (.load ⟨"../secret"⟩
        ((Path.root.push (.index 0)).push (.index 1)) (.notFound ⟨"../secret"⟩))) ∧
      select (read "[1]") 3 o = select (read "[2]") 3 o := by
  intro file read o outside
  have houtside : outside = "blocks/../secret.json" := by decide +kernel
  have hplain (name : String) (h : BlockDirectory.IsPlain name) :
      BlockDirectory.fileName "blocks" ⟨name⟩ ≠ "blocks/../secret.json" := by
    intro heq
    obtain rfl := Link.mk.inj (BlockDirectory.fileName_inj.1 (heq.trans houtside.symm))
    exact h.slash_notMem (by decide)
  have hreads (directory : String) (hdirectory : o.links = some directory) (name : String)
      (hname : BlockDirectory.IsPlain name) :
      read "[1]" (BlockDirectory.fileName directory ⟨name⟩) =
        read "[2]" (BlockDirectory.fileName directory ⟨name⟩) := by
    cases hdirectory
    simp only [read, file, if_neg (hplain name hname)]
  exact ⟨by rw [houtside]; decide, by decide +kernel, by decide +kernel,
    select_eq_of_reads_eq (by simp [read, file, o]) (by simp [read, file, o]) hreads 3⟩

end Command

end DagSelect
