import Mathlib.Data.List.Forall2

/-! When a sequence of checks succeeds, and which error it fails with. A check is a computation in
`Except`; what is said of its success holds whatever the errors are. -/
namespace ControlStore
namespace Checks

variable {ε ε' α β : Type}

theorem bind_eq_ok {x : Except ε α} {f : α → Except ε β} {b : β} :
    (x >>= f) = .ok b ↔ ∃ a, x = .ok a ∧ f a = .ok b := by
  cases x <;> simp [bind,Except.bind]

theorem ok_bind (a : α) (f : α → Except ε β) : (Except.ok a >>= f) = f a := rfl

theorem bind_eq_error {x : Except ε α} {f : α → Except ε β} {e : ε} :
    (x >>= f) = .error e ↔ x = .error e ∨ ∃ a, x = .ok a ∧ f a = .error e := by
  cases x <;> simp [bind,Except.bind]

theorem map_eq_ok {x : Except ε α} {f : α → β} {b : β} :
    (f <$> x) = .ok b ↔ ∃ a, x = .ok a ∧ f a = b := by
  cases x <;> simp [Functor.map,Except.map]

@[simp] theorem pure_eq_ok {a b : α} : (pure a : Except ε α) = .ok b ↔ a = b := by
  simp [pure,Except.pure]

@[simp] theorem mapError_eq_ok {f : ε → ε'} {a : α} {x : Except ε α} :
    x.mapError f = .ok a ↔ x = .ok a := by
  rcases x with e | b
  · simp [Except.mapError]
  · simp [Except.mapError]

theorem mapError_eq_error {f : ε → ε'} {e : ε'} {x : Except ε α} :
    x.mapError f = .error e ↔ ∃ e', x = .error e' ∧ f e' = e := by
  cases x <;> simp [Except.mapError]

theorem map_eq_error {f : α → β} {e : ε} {x : Except ε α} :
    (f <$> x) = .error e ↔ x = .error e := by
  cases x <;> simp [Functor.map,Except.map]

theorem forM_eq_ok {xs : List α} {f : α → Except ε Unit} {u : Unit} :
    xs.forM f = .ok u ↔ ∀ x ∈ xs, f x = .ok () := by
  induction xs with
  | nil => simp [List.forM]
  | cons x xs ih =>
    have hcons : (x :: xs).forM f = (f x >>= fun _ => xs.forM f) := rfl
    rw [hcons,bind_eq_ok,List.forall_mem_cons,← ih]
    constructor
    · rintro ⟨⟨⟩,hx,hs⟩
      exact ⟨hx,hs⟩
    · rintro ⟨hx,hs⟩
      exact ⟨(),hx,hs⟩

theorem exists_of_forall₂ {R : α → β → Prop} {xs : List α} {ys : List β}
    (h : List.Forall₂ R xs ys) {x : α} (hx : x ∈ xs) : ∃ y ∈ ys, R x y := by
  obtain ⟨i,hi,rfl⟩ := List.getElem_of_mem hx
  have hi' : i < ys.length := h.length_eq ▸ hi
  exact ⟨ys[i],List.getElem_mem hi',h.get hi hi'⟩

theorem forall₂_iff_of_forall₂ {α' : Type} {R : α → α' → Prop} {P : α → β → Prop}
    {P' : α' → β → Prop} {xs : List α} {xs' : List α'} {ys : List β} (h : List.Forall₂ R xs xs')
    (hP : ∀ x x', R x x' → ∀ y, P x y ↔ P' x' y) :
    List.Forall₂ P xs ys ↔ List.Forall₂ P' xs' ys := by
  induction h generalizing ys with
  | nil => simp
  | cons hx _ ih => simp only [List.forall₂_cons_left_iff,hP _ _ hx,ih]

theorem forall₂_iff_of_mem {P P' : α → β → Prop} {xs : List α} {ys : List β}
    (h : ∀ x ∈ xs, ∀ y, P x y ↔ P' x y) : List.Forall₂ P xs ys ↔ List.Forall₂ P' xs ys :=
  forall₂_iff_of_forall₂ (List.forall₂_same.mpr h) fun _ _ hx => hx

theorem mapM_eq_ok {xs : List α} {f : α → Except ε β} {ys : List β} :
    xs.mapM f = .ok ys ↔ List.Forall₂ (fun x y => f x = .ok y) xs ys := by
  induction xs generalizing ys with
  | nil => cases ys <;> simp
  | cons x xs ih =>
    simp only [List.mapM_cons,bind_eq_ok,pure_eq_ok,ih,List.forall₂_cons_left_iff]
    constructor
    · rintro ⟨y,hy,ys',hys,rfl⟩
      exact ⟨y,ys',hy,hys,rfl⟩
    · rintro ⟨y,ys',hy,hys,rfl⟩
      exact ⟨y,hy,ys',hys,rfl⟩

theorem exists_mapM_eq_ok {xs : List α} {f : α → Except ε β} (h : ∀ x ∈ xs, ∃ y, f x = .ok y) :
    ∃ ys, xs.mapM f = .ok ys := by
  induction xs with
  | nil => exact ⟨[],rfl⟩
  | cons x xs ih =>
    rw [List.forall_mem_cons] at h
    obtain ⟨y,hy⟩ := h.1
    obtain ⟨ys,hys⟩ := ih h.2
    exact ⟨y :: ys,mapM_eq_ok.mpr (.cons hy (mapM_eq_ok.mp hys))⟩

theorem exists_mapM_eq_ok_iff {xs : List α} {f : α → Except ε β} :
    (∃ ys, xs.mapM f = .ok ys) ↔ ∀ x ∈ xs, ∃ y, f x = .ok y := by
  refine ⟨?_,exists_mapM_eq_ok⟩
  rintro ⟨ys,hys⟩ x hx
  obtain ⟨y,-,hy⟩ := exists_of_forall₂ (mapM_eq_ok.mp hys) hx
  exact ⟨y,hy⟩

/-- A sequence fails with the first member that does. -/
theorem mapM_eq_error {xs : List α} {f : α → Except ε β} {e : ε} : xs.mapM f = .error e ↔
    ∃ front x rest, xs = front ++ x :: rest ∧ (∀ y ∈ front, ∃ b, f y = .ok b) ∧
      f x = .error e := by
  induction xs with
  | nil => simp [pure,Except.pure]
  | cons x xs ih =>
    rw [List.mapM_cons,bind_eq_error]
    constructor
    · rintro (hx | ⟨b,hb,hrest⟩)
      · exact ⟨[],x,xs,rfl,by simp,hx⟩
      · rcases bind_eq_error.mp hrest with hrest | ⟨ys,-,hys⟩
        · obtain ⟨front,y,rest,rfl,hfront,hy⟩ := ih.mp hrest
          exact ⟨x :: front,y,rest,rfl,List.forall_mem_cons.mpr ⟨⟨b,hb⟩,hfront⟩,hy⟩
        · cases hys
    · rintro ⟨front,y,rest,hsplit,hfront,hy⟩
      rcases List.cons_eq_append_iff.mp hsplit with ⟨rfl,hhead⟩ | ⟨front,rfl,hrest⟩
      · cases hhead
        exact .inl hy
      · obtain ⟨⟨b,hb⟩,hfront⟩ := List.forall_mem_cons.mp hfront
        exact .inr ⟨b,hb,bind_eq_error.mpr (.inl (ih.mpr ⟨front,y,rest,hrest,hfront,hy⟩))⟩

theorem mapM_eq_ok_map {xs : List α} {f : α → Except ε β} {g : α → β}
    (h : ∀ x ∈ xs, f x = .ok (g x)) : xs.mapM f = .ok (xs.map g) :=
  mapM_eq_ok.mpr (List.forall₂_map_right_iff.mpr (List.forall₂_same.mpr h))

/-- Positions that only serve the errors do not matter for success. -/
theorem mapM_zipIdx_eq_ok {xs : List α} {f : α × Nat → Except ε β} {g : α → Except ε' β}
    {ys : List β} (k : Nat) (h : ∀ x i y, f (x,i) = .ok y ↔ g x = .ok y) :
    (xs.zipIdx k).mapM f = .ok ys ↔ xs.mapM g = .ok ys := by
  rw [mapM_eq_ok,mapM_eq_ok]
  induction xs generalizing k ys with
  | nil => simp
  | cons x xs ih => simp only [List.zipIdx_cons,List.forall₂_cons_left_iff,h x k,ih]

/-- A numbered sequence fails with the number of the first member that does. -/
theorem mapM_zipIdx_eq_error {xs : List α} {f : α × Nat → Except ε β} {g : α → Except ε' β} {e : ε}
    (k : Nat) (h : ∀ x i y, f (x,i) = .ok y ↔ g x = .ok y) : (xs.zipIdx k).mapM f = .error e ↔
      ∃ front x rest, xs = front ++ x :: rest ∧ (∀ y ∈ front, ∃ b, g y = .ok b) ∧
        f (x,k+front.length) = .error e := by
  rw [mapM_eq_error]
  constructor
  · rintro ⟨_,_,_,hsplit,hfront,hx⟩
    obtain ⟨front,_,rfl,rfl,hrest⟩ := List.zipIdx_eq_append_iff.mp hsplit
    obtain ⟨x,rest,rfl,rfl,rfl⟩ := List.zipIdx_eq_cons_iff.mp hrest.symm
    refine ⟨front,x,rest,rfl,?_,hx⟩
    intro y hy
    obtain ⟨i,hi,rfl⟩ := List.getElem_of_mem hy
    obtain ⟨b,hb⟩ := hfront (front[i],k+i) (List.mk_add_mem_zipIdx_iff_getElem?.mpr
      (List.getElem?_eq_getElem hi))
    exact ⟨b,(h _ _ _).mp hb⟩
  · rintro ⟨front,x,rest,rfl,hfront,hx⟩
    refine ⟨front.zipIdx k,(x,k+front.length),rest.zipIdx (k+front.length+1),?_,?_,hx⟩
    · rw [List.zipIdx_append,List.zipIdx_cons]
    · rintro ⟨y,i⟩ hy
      obtain ⟨b,hb⟩ := hfront y (List.fst_mem_of_mem_zipIdx hy)
      exact ⟨b,(h y i b).mpr hb⟩

instance decidableForallOk {ε α : Type} (x : Except ε α) (p : α → Prop) [DecidablePred p] :
    Decidable (∀ a, x = .ok a → p a) :=
  match x with
  | .error _ => .isTrue fun _ h => nomatch h
  | .ok a => decidable_of_iff (p a) ⟨fun h _ hb => Except.ok.inj hb ▸ h,fun h => h a rfl⟩

end Checks
end ControlStore
