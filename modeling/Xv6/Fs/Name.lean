import Mathlib.Data.List.TakeWhile
import Xv6.Fs.Volume

/-!
# Names, directory entries and path elements

Strings are lists of bytes; a list that ends stands for a string that ends with a NUL there.
`elements` are the components of a path, which `skipelem` takes off one by one.
-/

namespace Xv6.Fs

abbrev Str := List UInt8

def SLASH : UInt8 := 47

def DOT : Str := [46]

def DOTDOT : Str := [46, 46]

def strncmp : ℕ → Str → Str → ℤ
  | 0, _, _ => 0
  | n + 1, p, q =>
    if p.headD 0 ≠ 0 ∧ p.headD 0 = q.headD 0 then strncmp n p.tail q.tail
    else (p.headD 0).toNat - (q.headD 0).toNat

def strncpy : ℕ → Str → List UInt8
  | 0, _ => []
  | n + 1, t =>
    if t.headD 0 ≠ 0 then t.headD 0 :: strncpy n t.tail else List.replicate (n + 1) 0

def namecmp (s t : Str) : ℤ := strncmp DIRSIZ s t

/-! ## Directory entries -/

/-- The bytes of a `struct dirent`; the inode number is an `unsigned short`. -/
def direntBytes (inum : ℕ) (name : Str) : List UInt8 :=
  UInt8.ofNat inum :: UInt8.ofNat (inum / 256) :: strncpy DIRSIZ name

def deInum (de : List UInt8) : ℕ := (de.getD 0 0).toNat + 256 * (de.getD 1 0).toNat

def deName (de : List UInt8) : Str := de.drop 2

def zeroDirent : List UInt8 := List.replicate DIRENTSZ 0

variable (sb : Superblock)

/-- The loops over the entries of a directory: read entries from offset `off` on, until one
satisfies `hit` or the directory ends. Returns the offset reached and the inode number of the entry
found; `fuel` bounds the iterations and `err` is the panic of a short read. -/
def scan (err : Panic) (hit : ℕ → Str → Bool) : ℕ → ℕ → InodeM (ℕ × Option ℕ)
  | 0, off => return (off, none)
  | fuel + 1, off => do
    let (d, _) ← get
    if off < d.size then do
      match ← readi sb off DIRENTSZ with
      | some de =>
        if de.length = DIRENTSZ then
          if hit (deInum de) (deName de) then return (off, some (deInum de))
          else scan err hit fuel (off + DIRENTSZ)
        else throw err
      | none => throw err
    else return (off, none)

def scanDir (err : Panic) (hit : ℕ → Str → Bool) (off : ℕ) : InodeM (ℕ × Option ℕ) := do
  let (d, _) ← get
  scan sb err hit d.size off

def dirfind (name : Str) : InodeM (Option (ℕ × ℕ)) := do
  let (d, _) ← get
  if d.type = .dir then do
    match ← scanDir sb .dirlookupRead (fun i n => i ≠ 0 && namecmp name n = 0) 0 with
    | (off, some inum) => return some (inum, off)
    | (_, none) => return none
  else throw .dirlookupNotDir

def dirAppend (dpInum : ℕ) (name : Str) (inum : ℕ) : InodeM Unit := do
  let (off, _) ← scanDir sb .dirlinkRead (fun i _ => i = 0) 0
  match ← writei sb dpInum off (direntBytes inum name) with
  | some n => if n = DIRENTSZ then return else throw .dirlink
  | none => throw .dirlink

def isdirempty : InodeM Bool := do
  let (_, hit) ← scanDir sb .isdiremptyReadi (fun i _ => i ≠ 0) (2 * DIRENTSZ)
  return hit.isNone

def dirErase (dpInum off : ℕ) : InodeM Unit := do
  match ← writei sb dpInum off zeroDirent with
  | some n => if n = DIRENTSZ then return else throw .unlinkWritei
  | none => throw .unlinkWritei

/-! ## Path elements -/

/-- Copy the next path element: its name, cut to `DIRSIZ` bytes, and the path after it with no
leading slashes. `none` if there is no element to remove. -/
def skipelem (path : Str) : Option (Str × Str) :=
  let path := path.dropWhile (· = SLASH)
  if path.headD 0 = 0 then none
  else
    let name := path.takeWhile fun c => c ≠ SLASH && c ≠ 0
    let rest := path.dropWhile fun c => c ≠ SLASH && c ≠ 0
    some (name.take DIRSIZ, rest.dropWhile (· = SLASH))

/-! ## The components of a path -/

def cstr (path : Str) : Str := path.takeWhile (· ≠ 0)

/-- The maximal runs of bytes that are not slashes, each cut to `DIRSIZ` bytes. -/
def elements (path : Str) : List Str :=
  (((cstr path).splitOnP (· = SLASH)).filter (· ≠ [])).map (·.take DIRSIZ)

section Elements

theorem cstr_cons {c : UInt8} (hc : c ≠ 0) (path : Str) : cstr (c :: path) = c :: cstr path :=
  List.takeWhile_cons_of_pos (by simpa using hc)

theorem cstr_of_headD {path : Str} (h : path.headD 0 = 0) : cstr path = [] := by
  cases path with
  | nil => rfl
  | cons c path =>
    have hc : c = 0 := h
    exact List.takeWhile_cons_of_neg (by simpa using hc)

theorem cstr_append {w : Str} (hw : ∀ c ∈ w, c ≠ 0) (path : Str) :
    cstr (w ++ path) = w ++ cstr path :=
  List.takeWhile_append_of_pos fun c hc => by simpa using hw c hc

theorem elements_of_headD {path : Str} (h : path.headD 0 = 0) : elements path = [] := by
  unfold elements
  rw [cstr_of_headD h]
  rfl

theorem elements_slash (path : Str) : elements (SLASH :: path) = elements path := by
  unfold elements
  have hsplit : List.splitOnP (· = SLASH) (SLASH :: cstr path) =
      [] :: List.splitOnP (· = SLASH) (cstr path) :=
    List.splitOnP_append_cons_of_forall_mem (fun _ h => absurd h List.not_mem_nil) SLASH (by simp) _
  rw [cstr_cons (by decide), hsplit]
  rfl

theorem elements_dropWhile (path : Str) :
    elements (path.dropWhile (· = SLASH)) = elements path := by
  induction path with
  | nil => rfl
  | cons c path ih =>
    by_cases hc : c = SLASH
    · rw [List.dropWhile_cons_of_pos (by simpa using hc), ih, hc, elements_slash]
    · rw [List.dropWhile_cons_of_neg (by simpa using hc)]

theorem elements_append {w rest : Str} (hne : w ≠ []) (hw : ∀ c ∈ w, c ≠ SLASH ∧ c ≠ 0)
    (hrest : rest.headD 0 = 0 ∨ rest.headD 0 = SLASH) :
    elements (w ++ rest) = w.take DIRSIZ :: elements rest := by
  have hno : ∀ c ∈ w, decide (c = SLASH) = false := fun c hc => decide_eq_false (hw c hc).1
  unfold elements
  rw [cstr_append fun c hc => (hw c hc).2]
  rcases hrest with h0 | hs
  · rw [cstr_of_headD h0, List.append_nil, List.splitOnP_eq_singleton hno,
      List.filter_cons_of_pos (by simpa using hne)]
    rfl
  · cases rest with
    | nil => exact absurd hs (by decide)
    | cons c rest =>
      have hc : c = SLASH := hs
      subst hc
      rw [cstr_cons (by decide), List.splitOnP_append_cons_of_forall_mem hno SLASH (by simp),
        List.filter_cons_of_pos (by simpa using hne), List.map_cons]
      have := elements_slash rest
      unfold elements at this
      rw [cstr_cons (by decide)] at this
      rw [this]

theorem headD_dropWhile (f : UInt8 → Bool) (path : Str) :
    path.dropWhile f = [] ∨ f ((path.dropWhile f).headD 0) = false := by
  induction path with
  | nil => exact .inl rfl
  | cons c path ih =>
    cases hc : f c with
    | true => rwa [List.dropWhile_cons_of_pos hc]
    | false =>
      rw [List.dropWhile_cons_of_neg (by simp [hc])]
      exact .inr hc

abbrev inElement (c : UInt8) : Bool := c ≠ SLASH && c ≠ 0

theorem inElement_iff {c : UInt8} : inElement c = true ↔ c ≠ SLASH ∧ c ≠ 0 := by
  simp [inElement]

theorem elements_first {path : Str} (h0 : path.headD 0 ≠ 0) (hs : path.headD 0 ≠ SLASH) :
    path.takeWhile inElement ≠ [] ∧
      elements path = (path.takeWhile inElement).take DIRSIZ ::
        elements (path.dropWhile inElement) := by
  have hne : path.takeWhile inElement ≠ [] := by
    cases path with
    | nil => exact absurd rfl h0
    | cons c l =>
      have hc : inElement c = true := inElement_iff.mpr ⟨hs, h0⟩
      rw [List.takeWhile_cons_of_pos hc]
      exact List.cons_ne_nil _ _
  have hend : (path.dropWhile inElement).headD 0 = 0 ∨
      (path.dropWhile inElement).headD 0 = SLASH := by
    rcases headD_dropWhile inElement path with e | e
    · rw [e]
      exact .inl rfl
    · by_contra hc
      rw [not_or] at hc
      rw [inElement_iff.mpr ⟨hc.2, hc.1⟩] at e
      cases e
  refine ⟨hne, ?_⟩
  rw [← elements_append hne (fun c hc => inElement_iff.mp (List.mem_takeWhile_imp hc)) hend,
    List.takeWhile_append_dropWhile]

theorem headD_ne_slash {path : Str} (h : (path.dropWhile (· = SLASH)).headD 0 ≠ 0) :
    (path.dropWhile (· = SLASH)).headD 0 ≠ SLASH := by
  rcases headD_dropWhile (· = SLASH) path with e | e
  · rw [e] at h
    exact absurd rfl h
  · exact of_decide_eq_false e

theorem skipelem_none {path : Str} (h : skipelem path = none) : elements path = [] := by
  unfold skipelem at h
  dsimp only at h
  split at h
  next h0 => rw [← elements_dropWhile, elements_of_headD h0]
  next => cases h

theorem skipelem_some {path name rest : Str} (h : skipelem path = some (name, rest)) :
    elements path = name :: elements rest ∧ rest.length < path.length ∧
      (rest.headD 0 = 0 ↔ elements rest = []) := by
  unfold skipelem at h
  dsimp only at h
  split at h
  · cases h
  next h0 =>
  cases h
  obtain ⟨hne, hfirst⟩ := elements_first h0 (headD_ne_slash h0)
  refine ⟨?_, ?_, elements_of_headD, fun hr => ?_⟩
  · rw [← elements_dropWhile path, hfirst, elements_dropWhile]
  · have hpos := List.length_pos_iff.mpr hne
    have hlen := congrArg List.length
      (List.takeWhile_append_dropWhile (p := inElement) (l := path.dropWhile (· = SLASH)))
    have hdrop := (List.dropWhile_sublist (l := (path.dropWhile (· = SLASH)).dropWhile inElement)
      (· = SLASH)).length_le
    have hle := (List.dropWhile_sublist (l := path) (· = SLASH)).length_le
    rw [List.length_append] at hlen
    show (List.dropWhile (· = SLASH) (List.dropWhile inElement _)).length < _
    omega
  · by_contra hr0
    rw [(elements_first hr0 (headD_ne_slash hr0)).2] at hr
    cases hr

end Elements

end Xv6.Fs
