import Xv6.Fs.Name
import Xv6.Fs.Ownership

/-!
# What code on an inode leaves alone

Facts that hold on any disk, with or without holes.

1. Code that only allocates and fills blocks takes the state along any preorder that does not look
   at blocks and block numbers (`BlockSteps`).
2. Code that works on the locked inode `inum` changes the type of no inode: of the inode table it
   changes the entry `inum` alone, to the copy it works on (`KeepsTypes`). This is all that the
   accounting of references needs to know about the disk. Nor does it begin or end an operation.
-/

namespace Xv6.Fs

open StateExcept

variable {sb : Superblock} {inum : ℕ} {α : Type}

def LeavesInodes (x y : Volume) : Prop := y.dinode = x.dinode ∧ y.outstanding = x.outstanding

theorem logWrite_inodes (b : ℕ) : Along LeavesInodes (logWrite sb b) := by
  intro v a v' h
  obtain ⟨lh, rfl⟩ := logWrite_ok h
  exact ⟨rfl, rfl⟩

theorem balloc_inodes : Along LeavesInodes (balloc sb) := by
  intro v a v' h
  obtain ⟨-, -, lh, rfl⟩ := balloc_ok h
  exact ⟨rfl, rfl⟩

theorem bfree_inodes (b : ℕ) : Along LeavesInodes (bfree sb b) := by
  intro v a v' h
  obtain ⟨lh, rfl⟩ := bfree_ok h
  exact ⟨rfl, rfl⟩

/-! ## Blocks -/

structure BlockSteps (R : Dinode × Volume → Dinode × Volume → Prop) : Prop where
  vol : ∀ d v v', LeavesInodes v v' → R (d, v) (d, v')
  addrs : ∀ d v a, R (d, v) ({ d with addrs := a }, v)

section BlockSteps

variable {R : Dinode × Volume → Dinode × Volume → Prop}

theorem BlockSteps.onVol (hR : BlockSteps R) {m : VolM α} (h : Along LeavesInodes m) :
    Along R (onVol m) := by
  rintro ⟨d, v⟩ a s hr
  obtain ⟨v', hm, rfl⟩ := onVol_ok hr
  exact hR.vol d v v' (h v a v' hm)

variable [IsPreorder (Dinode × Volume) R]

theorem addrAlloc_along (hR : BlockSteps R) (i : ℕ) : Along R (addrAlloc sb i) :=
  .bind Along.get fun _ => .ite
    (.bind (hR.onVol balloc_inodes) fun _ =>
      Along.bind (.modify fun x => hR.addrs x.1 x.2 _) fun _ => .pure _)
    (.pure _)

theorem indirectAlloc_along (hR : BlockSteps R) (ind bn : ℕ) : Along R (indirectAlloc sb ind bn) :=
  .bind Along.get fun _ => .ite
    (.bind (hR.onVol balloc_inodes) fun _ =>
      Along.bind (.modify fun x => hR.vol x.1 x.2 _ ⟨rfl, rfl⟩) fun _ =>
        Along.bind (hR.onVol (logWrite_inodes _)) fun _ => .pure _)
    (.pure _)

theorem bmap_along (hR : BlockSteps R) (bn : ℕ) : Along R (bmap sb bn) :=
  .ite (addrAlloc_along hR bn) (.ite
    (.bind (addrAlloc_along hR NDIRECT) fun _ => indirectAlloc_along hR _ _) (.throw _))

theorem readLoop_along (hR : BlockSteps R) (fuel off n : ℕ) : Along R (readLoop sb fuel off n) := by
  induction fuel generalizing off n with
  | zero => exact .pure _
  | succ fuel ih =>
    exact .ite (.pure _) (.bind (bmap_along hR _) fun _ =>
      Along.bind Along.get fun _ => .bind (ih _ _) fun _ => .pure _)

theorem readi_along (hR : BlockSteps R) (off n : ℕ) : Along R (readi sb off n) :=
  .bind Along.get fun _ => .ite (.pure _)
    (.bind (readLoop_along hR _ _ _) fun _ => .pure _)

theorem writeLoop_along (hR : BlockSteps R) (fuel off : ℕ) (src : List UInt8) :
    Along R (writeLoop sb fuel off src) := by
  induction fuel generalizing off src with
  | zero => exact .pure _
  | succ fuel ih =>
    exact .ite (.pure _) (.bind (bmap_along hR _) fun _ =>
      Along.bind (.modify fun x => hR.vol x.1 x.2 _ ⟨rfl, rfl⟩) fun _ =>
        Along.bind (hR.onVol (logWrite_inodes _)) fun _ => ih _ _)

end BlockSteps

/-! ## Types of inodes -/

/-- From `x` to `y` the copy of the inode keeps its type, and no other inode on disk changes; if the
inode on disk had the type of the copy, it still has. -/
structure KeepsTypes (inum : ℕ) (x y : Dinode × Volume) : Prop where
  copy : y.1.type = x.1.type
  others : ∀ j, j ≠ inum → y.2.dinode j = x.2.dinode j
  self : (x.2.dinode inum).type = x.1.type → (y.2.dinode inum).type = x.1.type
  ops : y.2.outstanding = x.2.outstanding

instance : IsPreorder (Dinode × Volume) (KeepsTypes inum) where
  refl _ := ⟨rfl, fun _ _ => rfl, id, rfl⟩
  trans x y z hxy hyz := by
    refine ⟨hyz.copy.trans hxy.copy, fun j hj => (hyz.others j hj).trans (hxy.others j hj), ?_,
      hyz.ops.trans hxy.ops⟩
    intro hx
    rw [← hxy.copy]
    exact hyz.self (by rw [hxy.self hx, hxy.copy])

theorem keepsTypes_steps : BlockSteps (KeepsTypes inum) where
  vol d v v' hv := ⟨rfl, fun j _ => by rw [hv.1], fun hd => by rw [hv.1]; exact hd, hv.2⟩
  addrs _ _ _ := ⟨rfl, fun _ _ => rfl, id, rfl⟩

theorem modify_types {f : Dinode × Volume → Dinode × Volume}
    (h : ∀ x, (f x).1.type = x.1.type ∧ LeavesInodes x.2 (f x).2) :
    Along (KeepsTypes inum) (modify f : InodeM PUnit) :=
  .modify fun x =>
    ⟨(h x).1, fun j _ => by rw [(h x).2.1], fun hd => by rw [(h x).2.1]; exact hd, (h x).2.2⟩

theorem iupdate_types : Along (KeepsTypes inum) (iupdate sb inum) := by
  rintro ⟨d, v⟩ a s h
  obtain ⟨lh, rfl⟩ := iupdate_ok h
  exact ⟨rfl, fun j hj => Function.update_of_ne hj .., fun _ => by simp only [Function.update_self],
    rfl⟩

theorem itruncDirect_types (is : List ℕ) : Along (KeepsTypes inum) (itruncDirect sb is) := by
  induction is with
  | nil => exact .pure _
  | cons i is ih =>
    exact .bind Along.get fun _ => .ite
      (.bind (keepsTypes_steps.onVol (bfree_inodes _)) fun _ =>
        Along.bind (modify_types fun _ => ⟨rfl, rfl, rfl⟩) fun _ => ih) ih

theorem itruncIndirect_types (a : Block) (js : List ℕ) :
    Along (KeepsTypes inum) (itruncIndirect sb a js) := by
  induction js with
  | nil => exact .pure _
  | cons j js ih =>
    exact .ite (.bind (keepsTypes_steps.onVol (bfree_inodes _)) fun _ => ih) ih

theorem itrunc_types : Along (KeepsTypes inum) (itrunc sb inum) := by
  refine .bind (itruncDirect_types _) fun _ => .bind ?_ fun _ =>
    Along.bind (modify_types fun _ => ⟨rfl, rfl, rfl⟩) fun _ => iupdate_types
  exact .bind Along.get fun _ => .ite
    (.bind (itruncIndirect_types _ _) fun _ =>
      Along.bind (keepsTypes_steps.onVol (bfree_inodes _)) fun _ =>
        modify_types fun _ => ⟨rfl, rfl, rfl⟩)
    (.pure _)

theorem writei_types (off : ℕ) (src : List UInt8) :
    Along (KeepsTypes inum) (writei sb inum off src) :=
  .bind Along.get fun _ => .ite (.pure _) (.ite (.pure _)
    (.bind (writeLoop_along keepsTypes_steps _ _ _) fun _ => .ite
      (.bind (modify_types fun _ => ⟨rfl, rfl, rfl⟩) fun _ =>
        Along.bind iupdate_types fun _ => .pure _)
      (.pure _)))

theorem scan_types (err : Panic) (hit : ℕ → Str → Bool) (fuel off : ℕ) :
    Along (KeepsTypes inum) (scan sb err hit fuel off) := by
  induction fuel generalizing off with
  | zero => exact .pure _
  | succ fuel ih =>
    refine .bind Along.get fun _ => .ite
      (.bind (readi_along keepsTypes_steps _ _) fun r => ?_)
      (.pure _)
    cases r with
    | none => exact .throw _
    | some de => exact .ite (.ite (.pure _) (ih _)) (.throw _)

theorem scanDir_types (err : Panic) (hit : ℕ → Str → Bool) (off : ℕ) :
    Along (KeepsTypes inum) (scanDir sb err hit off) :=
  .bind Along.get fun _ => scan_types _ _ _ _

theorem dirfind_types (name : Str) : Along (KeepsTypes inum) (dirfind sb name) := by
  refine .bind Along.get fun _ => .ite (.bind (scanDir_types _ _ _) fun r => ?_)
    (.throw _)
  obtain ⟨off, _ | i⟩ := r
  · exact .pure _
  · exact .pure _

theorem dirAppend_types (name : Str) (i : ℕ) :
    Along (KeepsTypes inum) (dirAppend sb inum name i) := by
  refine .bind (scanDir_types _ _ _) fun _ => .bind (writei_types _ _) fun r => ?_
  cases r with
  | none => exact .throw _
  | some n => exact .ite (.pure _) (.throw _)

theorem isdirempty_types : Along (KeepsTypes inum) (isdirempty sb) :=
  .bind (scanDir_types _ _ _) fun _ => .pure _

theorem dirErase_types (off : ℕ) : Along (KeepsTypes inum) (dirErase sb inum off) := by
  refine .bind (writei_types _ _) fun r => ?_
  cases r with
  | none => exact .throw _
  | some n => exact .ite (.pure _) (.throw _)

end Xv6.Fs
