import Mathlib.Tactic

/-! Path lookup in ext2, one component after the other. -/

namespace Takibi.Ext2

def kernelBlockSize : ℕ := 1024

/-- `EXT2_MAX_SINGLE_FILE_BLOCKS` blocks. -/
def ext2MaxDirectorySize : ℕ := 268 * kernelBlockSize

inductive Ext2LookupResult
  | invalid
  | notFound
  | found (inode : ℕ)
  deriving DecidableEq, Repr

/-- `block` is what a read of the block that the inode's pointers name at an index gives. -/
structure Ext2Inode where
  mode : BitVec 16
  size : ℕ
  block : ℕ → Option (Vector UInt8 kernelBlockSize)

structure Ext2Image where
  readInode : ℕ → Option Ext2Inode

def littleEndian (bytes : List UInt8) : ℕ := bytes.foldr (fun byte value => byte.toNat + 256 * value) 0
def inodeNumber (entry : List UInt8) : ℕ := littleEndian (entry.take 4)
def recordLength (entry : List UInt8) : ℕ := littleEndian ((entry.drop 4).take 2)
def nameLength (entry : List UInt8) : ℕ := littleEndian ((entry.drop 6).take 1)

def ext2NameMatches (entryName name : List UInt8) : Bool :=
  if entryName.length ≠ name.length ∨ entryName.length > 255 then false else entryName = name

namespace Ext2Inode
variable (directory : Ext2Inode)

def isDirectory : Bool :=
  directory.mode &&& 0xF000 = 0x4000 ∧ 8 ≤ directory.size ∧ directory.size ≤ ext2MaxDirectorySize

/-- The records from `cursor` on. A block is read where its first record is reached. -/
def lookupFrom (name : List UInt8) (cursor : ℕ) (file : Option (Vector UInt8 kernelBlockSize)) : Ext2LookupResult :=
  if cursor < directory.size then
    if directory.size - 8 < cursor then .invalid
    else
      let blockOffset := cursor % kernelBlockSize
      match if blockOffset = 0 then directory.block (cursor / kernelBlockSize) else file with
      | none => .invalid
      | some file =>
        let entry := file.toList.drop blockOffset
        if recordLength entry < 8 ∨ directory.size - cursor < recordLength entry ∨
            kernelBlockSize - blockOffset < recordLength entry ∨ recordLength entry - 8 < nameLength entry then .invalid
        else if inodeNumber entry ≠ 0 ∧ ext2NameMatches ((entry.drop 8).take (nameLength entry)) name then
          .found (inodeNumber entry)
        else lookupFrom name (cursor + recordLength entry) (some file)
  else .notFound
termination_by directory.size - cursor
decreasing_by
  change directory.size - (cursor + recordLength entry) < _
  omega

end Ext2Inode

def dot : List UInt8 := [0x2E]
def slash : UInt8 := 0x2F

namespace Ext2Image
variable (image : Ext2Image)

def lookupDirectory (directoryInode : ℕ) (name : List UInt8) : Ext2LookupResult :=
  if name.length = 0 ∨ name.length > 255 then .invalid
  else
    match image.readInode directoryInode with
    | none => .invalid
    | some directory => if directory.isDirectory then directory.lookupFrom name 0 none else .invalid

/-- The loop over the components, `tail` being the path from the cursor on. -/
def lookupComponents (currentInode : ℕ) (tail : List UInt8) : Ext2LookupResult :=
  if tail = [] then .found currentInode
  else
    let component := tail.takeWhile (· ≠ slash)
    let rest := tail.dropWhile (· ≠ slash)
    if component = [] then .invalid
    else if component = dot then lookupComponents currentInode (rest.drop 1)
    else
      match image.lookupDirectory currentInode component with
      | .invalid => .invalid
      | .notFound => .notFound
      | .found inode => if rest.length = 1 then .invalid else lookupComponents inode (rest.drop 1)
termination_by tail.length
decreasing_by
  all_goals
    have := (List.dropWhile_suffix (l := tail) (· ≠ slash)).length_le
    have := List.length_pos_iff.mpr ‹tail ≠ []›
    rw [List.length_drop]
    omega

def lookupPathFrom (startInode : ℕ) (name : List UInt8) : Ext2LookupResult :=
  if name.length = 0 ∨ name.length > 255 then .invalid
  else if name = dot then .found startInode
  else image.lookupComponents startInode name

/-! ### The law -/

def IsDirectory (inode : ℕ) : Prop := ∃ directory, image.readInode inode = some directory ∧ directory.isDirectory

/-- The components lead from `inode` to `target`. Every inode from which one is taken is a directory. -/
def Resolves : ℕ → List (List UInt8) → ℕ → Prop
  | inode, [], target => target = inode
  | inode, component :: components, target =>
    image.IsDirectory inode ∧
      if component = dot then Resolves inode components target
      else ∃ next, image.lookupDirectory inode component = .found next ∧ Resolves next components target

/-- The first component that fails is absent from its directory. -/
def Absent : ℕ → List (List UInt8) → Prop
  | _, [] => False
  | inode, component :: components =>
    image.IsDirectory inode ∧
      if component = dot then Absent inode components
      else image.lookupDirectory inode component = .notFound ∨
        ∃ next, image.lookupDirectory inode component = .found next ∧ Absent next components

/-- The path ends in a `.` that stands before a last slash or at an inode that is no directory, and what is
before it leads to `target`. -/
def EndsAtDot : ℕ → List (List UInt8) → ℕ → Prop
  | _, [], _ => False
  | inode, component :: components, target =>
    if component = dot then
      EndsAtDot inode components target ∨
        target = inode ∧ (components = [[]] ∨ components = [] ∧ ¬image.IsDirectory inode)
    else ∃ next, image.lookupDirectory inode component = .found next ∧ EndsAtDot next components target

/-! ### The walk -/

variable {image} {inode target : ℕ} {component tail : List UInt8}

lemma isDirectory_of_lookup (answered : image.lookupDirectory inode component ≠ .invalid) :
    image.IsDirectory inode := by
  unfold lookupDirectory at answered
  split_ifs at answered
  · exact absurd rfl answered
  split at answered
  · exact absurd rfl answered
  case h_2 directory found =>
    split_ifs at answered with isDirectory
    swap
    · exact absurd rfl answered
    exact ⟨directory, found, isDirectory⟩

lemma lookupComponents_append {rest : List UInt8} (free : slash ∉ component)
    (next : rest.takeWhile (· ≠ slash) = []) (ne : component ++ rest ≠ []) :
    image.lookupComponents inode (component ++ rest) =
      if component = [] then .invalid
      else if component = dot then image.lookupComponents inode (rest.drop 1)
      else
        match image.lookupDirectory inode component with
        | .invalid => .invalid
        | .notFound => .notFound
        | .found inode => if rest.length = 1 then .invalid else image.lookupComponents inode (rest.drop 1) := by
  have all : ∀ byte ∈ component, decide (byte ≠ slash) = true := fun byte mem => by
    rw [decide_eq_true_iff]
    rintro rfl
    exact free mem
  have dropped : rest.dropWhile (· ≠ slash) = rest := by
    have := List.takeWhile_append_dropWhile (p := (· ≠ slash)) (l := rest)
    rwa [next] at this
  rw [lookupComponents, if_neg ne]
  dsimp only
  rw [List.takeWhile_append_of_pos all, List.dropWhile_append_of_pos all, next, dropped, List.append_nil]

lemma splitOn_cases (tail : List UInt8) : (slash ∉ tail ∧ tail.splitOn slash = [tail]) ∨
      ∃ component rest, slash ∉ component ∧ tail = component ++ slash :: rest ∧
        tail.splitOn slash = component :: rest.splitOn slash := by
  have free : ∀ {component : List UInt8}, slash ∉ component → ∀ byte ∈ component, (byte == slash) = false :=
    fun free byte mem => beq_false_of_ne (by rintro rfl; exact free mem)
  by_cases mem : slash ∈ tail
  · obtain ⟨component, rest, rfl, notMem⟩ := List.eq_append_cons_of_mem mem
    exact .inr ⟨component, rest, notMem, rfl, List.splitOnP_append_cons_of_forall_mem (free notMem) _ (by simp) _⟩
  · exact .inl ⟨mem, List.splitOnP_eq_singleton (free mem)⟩

structure Answers (image : Ext2Image) (inode : ℕ) (answer : Ext2LookupResult) (components : List (List UInt8)) :
    Prop where
  found : ∀ target, answer = .found target ↔
    image.Resolves inode components target ∨ image.EndsAtDot inode components target
  notFound : answer = .notFound ↔ image.Absent inode components

namespace Answers
variable {answer : Ext2LookupResult} {components : List (List UInt8)}

lemma nil : Answers image inode (.found inode) [] where
  found target := by simp [Resolves, EndsAtDot, eq_comm]
  notFound := by simp [Absent]

lemma empty : Answers image inode .invalid ([] :: components) where
  found target := by simp [Resolves, EndsAtDot, dot, lookupDirectory]
  notFound := by simp [Absent, dot, lookupDirectory]

lemma lastDot : Answers image inode (.found inode) [dot] where
  found target := by
    simp only [Resolves, EndsAtDot, Ext2LookupResult.found.injEq]
    grind
  notFound := by simp [Absent]

lemma dotSlash : Answers image inode (.found inode) [dot, []] where
  found target := by
    simp only [Resolves, EndsAtDot, Ext2LookupResult.found.injEq]
    grind [lookupDirectory, dot]
  notFound := by simp [Absent, dot, lookupDirectory]

lemma dotCons {component : List UInt8} (answers : Answers image inode answer (component :: components))
    (more : component ≠ [] ∨ components ≠ []) : Answers image inode answer (dot :: component :: components) where
  found target := by
    rw [answers.found]
    conv_rhs => rw [Resolves, EndsAtDot]
    simp only [if_true]
    have : image.Resolves inode (component :: components) target → image.IsDirectory inode := And.left
    grind
  notFound := by
    rw [answers.notFound]
    conv_rhs => rw [Absent]
    have : image.Absent inode (component :: components) → image.IsDirectory inode := And.left
    simpa using this

lemma name {component : List UInt8} (ne : component ≠ dot) {walk : ℕ → Ext2LookupResult}
    (answers : ∀ next, Answers image next (walk next) components) :
    Answers image inode (match image.lookupDirectory inode component with
      | .invalid => .invalid
      | .notFound => .notFound
      | .found next => walk next) (component :: components) := by
  have directory := @isDirectory_of_lookup image inode component
  cases looked : image.lookupDirectory inode component with
  | invalid =>
    constructor
    · simp [Resolves, EndsAtDot, ne, looked]
    · simp [Absent, ne, looked]
  | notFound =>
    constructor
    · simp [Resolves, EndsAtDot, ne, looked]
    · simp [Absent, ne, looked, directory]
  | found next =>
    constructor
    · simp [Resolves, EndsAtDot, ne, looked, directory, (answers next).found]
    · simp [Absent, ne, looked, directory, (answers next).notFound]

end Answers

lemma lookupComponents_nil : image.lookupComponents inode [] = .found inode := by rw [lookupComponents, if_pos rfl]

lemma lookupComponents_answers (ne : tail ≠ []) :
    Answers image inode (image.lookupComponents inode tail) (tail.splitOn slash) := by
  induction length : tail.length using Nat.strong_induction_on generalizing inode tail with
  | h size ih =>
    obtain ⟨free, split⟩ | ⟨component, rest, free, rfl, split⟩ := splitOn_cases tail
    · have walked : image.lookupComponents inode (tail ++ []) = _ := lookupComponents_append free rfl (by simpa)
      rw [List.append_nil, if_neg ne, List.drop_nil] at walked
      rw [split, walked]
      by_cases isDot : tail = dot
      · rw [if_pos isDot, isDot, lookupComponents_nil]
        exact .lastDot
      · rw [if_neg isDot]
        refine .name isDot fun next => ?_
        rw [if_neg (by decide), lookupComponents_nil]
        exact .nil
    · have shorter : rest.length < size := by
        rw [← length, List.length_append, List.length_cons]
        omega
      rw [split, lookupComponents_append free (by simp) (by simp), List.drop_one, List.tail_cons]
      by_cases isEmpty : component = []
      · rw [if_pos isEmpty, isEmpty]
        exact .empty
      rw [if_neg isEmpty]
      by_cases isDot : component = dot
      · rw [if_pos isDot, isDot]
        by_cases last : rest = []
        · rw [last, lookupComponents_nil]
          exact .dotSlash
        · have answers : Answers image inode _ _ := ih _ shorter last rfl
          obtain ⟨-, split'⟩ | ⟨component', rest', -, -, split'⟩ := splitOn_cases rest
          · rw [split'] at answers ⊢
            exact answers.dotCons (.inl last)
          · rw [split'] at answers ⊢
            exact answers.dotCons (.inr (List.splitOn_ne_nil _ _))
      · rw [if_neg isDot]
        refine .name isDot fun next => ?_
        by_cases last : rest = []
        · rw [if_pos (by simp [last]), last]
          exact .empty
        · rw [if_neg (by simpa using last)]
          exact ih _ shorter last rfl

lemma not_endsAtDot {components : List (List UInt8)} (resolves : image.Resolves inode components target)
    (target' : ℕ) : ¬image.EndsAtDot inode components target' := by
  induction components generalizing inode with
  | nil => exact id
  | cons component components ih =>
    obtain ⟨directory, resolves⟩ := resolves
    unfold EndsAtDot
    by_cases isDot : component = dot
    · rw [if_pos isDot] at resolves ⊢
      rintro (ends | ⟨-, rfl | ⟨-, file⟩⟩)
      · exact ih resolves ends
      · simp [Resolves, dot, lookupDirectory] at resolves
      · exact file directory
    · rw [if_neg isDot] at resolves ⊢
      rintro ⟨next, looked, ends⟩
      obtain ⟨next', looked', resolves⟩ := resolves
      cases looked.symm.trans looked'
      exact ih resolves ends

end Ext2Image

open Ext2Image

/-- The answers are those of the components exactly if the path does not end at a `.` before a last slash or at a
file. -/
theorem lookupPathFrom_components (image : Ext2Image) (start : ℕ) (path : List UInt8) (short : path.length ≤ 255) :
    ((∀ target, image.lookupPathFrom start path = .found target ↔
        image.Resolves start (path.splitOn slash) target) ∧
      (image.lookupPathFrom start path = .notFound ↔ image.Absent start (path.splitOn slash))) ↔
    ∀ target, ¬image.EndsAtDot start (path.splitOn slash) target := by
  have answers : Answers image start (image.lookupPathFrom start path) (path.splitOn slash) := by
    unfold lookupPathFrom
    by_cases isEmpty : path = []
    · rw [if_pos (.inl (by simp [isEmpty])), isEmpty]
      exact .empty
    rw [if_neg (by simp [isEmpty, short])]
    by_cases isDot : path = dot
    · rw [if_pos isDot, isDot]
      exact .lastDot
    · rw [if_neg isDot]
      exact lookupComponents_answers isEmpty
  constructor
  · rintro ⟨found, -⟩ target ends
    exact not_endsAtDot ((found target).mp ((answers.found target).mpr (.inr ends))) target ends
  · intro none
    exact ⟨fun target => by rw [answers.found, or_iff_left (none target)], answers.notFound⟩

def rootOnly : Ext2Image := ⟨fun inode => if inode = 2 then some ⟨0x4000, 1024, fun _ => none⟩ else none⟩

/-- A block with one record: `a` is inode 11. -/
def entryBytes : List UInt8 := [11, 0, 0, 0, 0, 4, 1, 2, 0x61] ++ List.replicate 1015 0

lemma length_entryBytes : entryBytes.toArray.size = kernelBlockSize := by
  rw [List.size_toArray, entryBytes, List.length_append, List.length_replicate]
  rfl

def entryBlock : Vector UInt8 kernelBlockSize := ⟨entryBytes.toArray, length_entryBytes⟩

def withEntry : Ext2Image := ⟨fun inode => if inode = 2 then some ⟨0x4000, 1024, fun _ => some entryBlock⟩ else none⟩

lemma withEntry_lookup : withEntry.lookupDirectory 2 [0x61] = .found 11 := by
  have found : Ext2Inode.lookupFrom ⟨0x4000, 1024, fun _ => some entryBlock⟩ [0x61] 0 none = .found 11 := by
    have record : recordLength entryBlock.toList = 1024 := rfl
    have length : nameLength entryBlock.toList = 1 := rfl
    have inode : inodeNumber entryBlock.toList = 11 := rfl
    have name : (entryBlock.toList.drop 8).take 1 = [0x61] := rfl
    have room : ¬kernelBlockSize < 1024 := by decide
    rw [Ext2Inode.lookupFrom]
    simp only [Nat.zero_mod, if_true, List.drop_zero]
    rw [record, length, inode, name]
    simp [ext2NameMatches, room]
  rw [lookupDirectory, if_neg (by decide)]
  exact (if_pos (by decide)).trans found

/-- `./a` looks `a` up in the directory. -/
theorem lookupPathFrom_components_entry : withEntry.lookupPathFrom 2 (dot ++ [slash, 0x61]) = .found 11 ∧
    withEntry.Resolves 2 ((dot ++ [slash, 0x61]).splitOn slash) 11 := by
  have law := (lookupPathFrom_components withEntry 2 (dot ++ [slash, 0x61]) (by decide)).mpr fun target ends => by
    rw [show (dot ++ [slash, 0x61]).splitOn slash = [dot, [0x61]] from rfl] at ends
    simp [EndsAtDot, dot] at ends
  have found : withEntry.lookupPathFrom 2 (dot ++ [slash, 0x61]) = .found 11 := by
    simp [lookupPathFrom, lookupComponents, dot, slash, withEntry_lookup]
  exact ⟨found, (law.1 11).mp found⟩

/-- `./` is found, although its last component is empty. -/
theorem dotSlash_found : rootOnly.lookupPathFrom 2 (dot ++ [slash]) = .found 2 ∧
    ¬rootOnly.Resolves 2 ((dot ++ [slash]).splitOn slash) 2 := by
  constructor
  · simp [lookupPathFrom, lookupComponents, dot, slash]
  · rw [show (dot ++ [slash]).splitOn slash = [dot, []] from rfl]
    simp [Resolves, dot, lookupDirectory]

end Takibi.Ext2
