import Spider.ObjModel.Container

/-!
# The checked machine refines the wrapping one

Every function gives, on the wrapping machine, whatever it returns on the
checked one: the two differ only where a counter passes its largest value, and
there the checked machine returns nothing.
-/

namespace Spider.ObjModel

open Lib Outcome

variable {α : Type} (m : Machine)

theorem spdAtomicFetchaddInt_refines (x d : Int32) :
    (spdAtomicFetchaddInt m.toChecked x d).Refines (spdAtomicFetchaddInt m.toWrap x d) := by
  intro v hv
  simp only [spdAtomicFetchaddInt, Machine.toChecked] at hv
  split at hv
  · simpa [spdAtomicFetchaddInt, Machine.toWrap] using hv
  · cases hv

theorem internalObjLink_refines (st : State α) (c userData : Addr) (flags : SearchFlags) :
    (internalObjLink m.toChecked st c userData flags).Refines
      (internalObjLink m.toWrap st c userData flags) := by
  unfold internalObjLink
  refine .bind (.refl _) fun o => ?_
  cases o with
  | none => exact .refl _
  | some _ =>
    refine .bind (.refl _) fun o => ?_
    cases o with
    | none => exact .refl _
    | some _ =>
      refine .bind (.refl _) fun ⟨_, cont⟩ => ?_
      refine .ite (.refl _) ?_
      refine .bind (.refl _) fun _ => .bind (.refl _) fun _ => .bind (.refl _) fun _ => ?_
      refine .bind (.refl _) fun _ => .bind (spdAtomicFetchaddInt_refines m _ _) fun _ => ?_
      exact .bind (spdAtomicFetchaddInt_refines m _ _) fun _ => .refl _

namespace Open

variable {ref ref' : State α → Addr → Int32 → Outcome (Int32 × State α)}
  (href : ∀ st a d, (ref st a d).Refines (ref' st a d))

include href

theorem objLink_refines (st : State α) (c userData : Addr) (flags : SearchFlags) :
    (objLink ref m.toChecked st c userData flags).Refines
      (objLink ref' m.toWrap st c userData flags) := by
  unfold objLink
  refine .bind (internalObjLink_refines m _ _ _ _) fun ⟨p, st⟩ => .ite (.refl _) ?_
  exact .bind (href _ _ _) fun ⟨_, _⟩ => .bind (.refl _) fun _ => .refl _

theorem unlinkCurrent_refines (st : State α) (c : Addr) (flags : SearchFlags) (i : Nat)
    (cur : BucketEntry) :
    (unlinkCurrent ref m.toChecked st c flags i cur).Refines
      (unlinkCurrent ref' m.toWrap st c flags i cur) := by
  unfold unlinkCurrent
  refine .ite (.bind (.refl _) fun ⟨ob, cont⟩ => ?_) (.refl _)
  refine .bind (spdAtomicFetchaddInt_refines m _ _) fun _ => ?_
  refine .bind (spdAtomicFetchaddInt_refines m _ _) fun _ => .ite ?_ (.refl _)
  exact .bind (href _ _ _) fun _ => .refl _

omit m in
theorem refMatch_refines (st : State α) (flags : SearchFlags) (cur : BucketEntry) (ret : Addr) :
    (refMatch ref st flags cur ret).Refines (refMatch ref' st flags cur ret) := by
  unfold refMatch
  exact .ite (.refl _) (.ite (.refl _) (.bind (href _ _ _) fun _ => .refl _))

theorem takeMatch_refines (st : State α) (flags : SearchFlags) (multi : Option Addr)
    (cur : BucketEntry) (ret : Addr) :
    (takeMatch ref m.toChecked st flags multi cur ret).Refines
      (takeMatch ref' m.toWrap st flags multi cur ret) := by
  unfold takeMatch
  refine .bind (refMatch_refines href _ _ _ _) fun ⟨ret, st⟩ => ?_
  cases multi with
  | none => exact .refl _
  | some multi =>
    exact .ite (.refl _) (.bind (objLink_refines m href _ _ _ _) fun _ => .refl _)

theorem traverseBucket_refines (c : Addr) (flags : SearchFlags) {cb cb' : Callback α}
    (hcb : ∀ st p, (cb st p).Refines (cb' st p)) (multi : Option Addr) (i : Nat)
    (es : List BucketEntry) (ret : Addr) (st : State α) :
    (traverseBucket ref m.toChecked c flags cb multi i es ret st).Refines
      (traverseBucket ref' m.toWrap c flags cb' multi i es ret st) := by
  induction es generalizing ret st with
  | nil => exact .refl _
  | cons cur rest ih =>
    unfold traverseBucket
    refine .bind (.refl _) fun ptr => .bind (hcb _ _) fun ⟨r, st⟩ => ?_
    refine .ite (ih _ _) (.ite (.refl _) ?_)
    refine .bind (takeMatch_refines m href _ _ _ _ _) fun ⟨ret, st⟩ => ?_
    refine .bind (unlinkCurrent_refines m href _ _ _ _ _) fun st => ?_
    exact .ite (.refl _) (ih _ _)

theorem bucketLoop_refines (c : Addr) (flags : SearchFlags) {cb cb' : Callback α}
    (hcb : ∀ st p, (cb st p).Refines (cb' st p)) (multi : Option Addr) (start : Int)
    (fuel : Nat) (i last : Int) (ret : Addr) (st : State α) :
    (bucketLoop ref m.toChecked c flags cb multi start fuel i last ret st).Refines
      (bucketLoop ref' m.toWrap c flags cb' multi start fuel i last ret st) := by
  induction fuel generalizing i last ret st with
  | zero => exact .refl _
  | succ fuel ih =>
    unfold bucketLoop
    refine .ite (.bind (.refl _) fun _ => .bind (.refl _) fun _ => ?_) (.refl _)
    refine .bind (traverseBucket_refines m href c flags hcb _ _ _ _ _) fun ⟨stop, ret, st⟩ => ?_
    exact .ite (.refl _) (.ite (ih _ _ _ _) (ih _ _ _ _))

theorem search_refines (st : State α) (c : Addr) (flags : SearchFlags) {cb cb' : Callback α}
    (hcb : ∀ st p, (cb st p).Refines (cb' st p)) (arg : Ptr α) (multi : Option Addr) :
    (search ref m.toChecked st c flags cb arg multi).Refines
      (search ref' m.toWrap st c flags cb' arg multi) := by
  unfold search
  refine .bind (.refl _) fun _ => .bind (.refl _) fun _ => .bind (.refl _) fun _ => ?_
  refine .bind (bucketLoop_refines m href c flags hcb _ _ _ _ _ _ _) fun _ => ?_
  exact .bind (.refl _) fun _ => .refl _

theorem objIteratorInit_refines (st : State α) (c : Addr) (flags : IteratorFlags) :
    (objIteratorInit ref st c flags).Refines (objIteratorInit ref' st c flags) := by
  unfold objIteratorInit
  exact .bind (href _ _ _) fun _ => .refl _

theorem internalObjCallback_refines (st : State α) (c : Addr) (flags : SearchFlags)
    {cb cb' : Option (Callback α)}
    (hcb : ∀ st p, ((cb.getD cbTrue) st p).Refines ((cb'.getD cbTrue) st p)) (arg : Ptr α) :
    (internalObjCallback ref m.toChecked st c flags cb arg).Refines
      (internalObjCallback ref' m.toWrap st c flags cb' arg) := by
  unfold internalObjCallback
  refine .bind (.refl _) fun o => ?_
  cases o with
  | none => exact .refl _
  | some _ =>
    refine .ite (.ite (.refl _) (.ite ?_ ?_)) ?_
    · exact .bind (href _ _ _) fun _ => .refl _
    · refine .bind (search_refines m href _ _ _ hcb _ _) fun _ => ?_
      refine .bind (objIteratorInit_refines href _ _ _) fun _ => ?_
      exact .bind (href _ _ _) fun _ => .refl _
    · exact .bind (search_refines m href _ _ _ hcb _ _) fun _ => .refl _

theorem containerDestruct_refines (st : State α) (c : Addr) :
    (containerDestruct ref m.toChecked st c).Refines (containerDestruct ref' m.toWrap st c) := by
  unfold containerDestruct
  refine .bind (internalObjCallback_refines m href _ _ _ ?_ _) fun _ => .refl _
  intro st p
  exact .bind (href _ _ _) fun _ => .refl _

end Open

theorem runDestructor_refines {ref ref' : State α → Addr → Int32 → Outcome (Int32 × State α)}
    (href : ∀ st a d, (ref st a d).Refines (ref' st a d)) (st : State α) (a : Addr)
    (d : Option DestructorFn) :
    (runDestructor ref m.toChecked st a d).Refines (runDestructor ref' m.toWrap st a d) := by
  match d with
  | none => exact .refl _
  | some .user => exact .refl _
  | some .containerDestruct => exact Open.containerDestruct_refines m href _ _

theorem internalObjRef_refines (fuel : Nat) (st : State α) (a : Addr) (d : Int32) :
    (internalObjRef m.toChecked fuel st a d).Refines (internalObjRef m.toWrap fuel st a d) := by
  induction fuel generalizing st a d with
  | zero => exact .refl _
  | succ fuel ih =>
    unfold internalObjRef
    refine .bind (.refl _) fun o => ?_
    cases o with
    | none => exact .refl _
    | some p =>
      refine .ite (.refl _) (.bind (spdAtomicFetchaddInt_refines m _ _) fun v => ?_)
      exact .ite (.bind (runDestructor_refines m ih _ _ _) fun _ => .refl _) (.refl _)

theorem objRef_refines (st : State α) (a : Addr) (d : Int32) :
    (objRef m.toChecked st a d).Refines (objRef m.toWrap st a d) :=
  internalObjRef_refines m _ st a d

theorem objLink_refines (st : State α) (c o : Addr) (flags : SearchFlags) :
    (objLink m.toChecked st c o flags).Refines (objLink m.toWrap st c o flags) :=
  Open.objLink_refines m (objRef_refines m) st c o flags

theorem objCallback_refines (st : State α) (c : Addr) (flags : SearchFlags)
    (cbFn : Option (Ptr α → Ptr α → SearchFlags → Int32)) (arg : Ptr α) :
    (objCallback m.toChecked st c flags cbFn arg).Refines
      (objCallback m.toWrap st c flags cbFn arg) :=
  Open.internalObjCallback_refines m (objRef_refines m) st c flags (fun _ _ => .refl _) arg

theorem objCallbackData_refines {δ : Type} (st : State α) (c : Addr) (flags : SearchFlags)
    (cbFn : Option (Ptr α → Ptr α → δ → SearchFlags → Int32)) (arg : Ptr α) (data : δ) :
    (objCallbackData m.toChecked st c flags cbFn arg data).Refines
      (objCallbackData m.toWrap st c flags cbFn arg data) :=
  Open.internalObjCallback_refines m (objRef_refines m) st c flags (fun _ _ => .refl _) arg

theorem objFind_refines (st : State α) (c : Addr) (arg : Ptr α) (flags : SearchFlags) :
    (objFind m.toChecked st c arg flags).Refines (objFind m.toWrap st c arg flags) :=
  .bind (.refl _) fun _ => objCallback_refines m _ _ _ _ _

theorem objUnlink_refines (st : State α) (c o : Addr) (flags : SearchFlags) :
    (objUnlink m.toChecked st c o flags).Refines (objUnlink m.toWrap st c o flags) := by
  unfold objUnlink
  refine .bind (.refl _) fun r => ?_
  cases r with
  | none => exact .refl _
  | some _ =>
    exact .bind (.refl _) fun _ => .bind (objCallback_refines m _ _ _ _ _) fun _ => .refl _

theorem objIteratorInit_refines (st : State α) (c : Addr) (flags : IteratorFlags) :
    (objIteratorInit m.toChecked st c flags).Refines (objIteratorInit m.toWrap st c flags) :=
  Open.objIteratorInit_refines (objRef_refines m) st c flags

theorem internalObjIteratorNext_refines (st : State α) (a : ObjIterator) :
    (internalObjIteratorNext m.toChecked st a).Refines
      (internalObjIteratorNext m.toWrap st a) := by
  unfold internalObjIteratorNext
  refine .bind (.refl _) fun o => ?_
  cases o with
  | none => exact .refl _
  | some _ =>
    refine .bind (.refl _) fun _ => .bind (.refl _) fun _ => .bind (.refl _) fun ⟨p, a⟩ => ?_
    cases p with
    | none => exact .refl _
    | some p =>
      refine .ite (.bind (spdAtomicFetchaddInt_refines m _ _) fun _ => ?_) (.refl _)
      exact .bind (spdAtomicFetchaddInt_refines m _ _) fun _ => .refl _

theorem refIf_refines (take : Bool) (st : State α) (a : Addr) :
    (refIf m.toChecked take st a).Refines (refIf m.toWrap take st a) := by
  unfold refIf
  exact .ite (.bind (objRef_refines m _ _ _) fun _ => .refl _) (.refl _)

theorem objIteratorNext_refines (st : State α) (a : ObjIterator) :
    (objIteratorNext m.toChecked st a).Refines (objIteratorNext m.toWrap st a) := by
  unfold objIteratorNext
  refine .bind (internalObjIteratorNext_refines m _ _) fun ⟨ret, take, a, st⟩ => ?_
  exact .bind (refIf_refines m _ _ _) fun _ => .bind (.refl _) fun _ => .refl _

end Spider.ObjModel
