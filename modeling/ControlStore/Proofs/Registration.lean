import Mathlib.Data.Fintype.Card
import ControlStore.Proofs.Encoding
import ControlStore.Proofs.Source.Meaning

/-! What a registry holds after any history of requests. It holds the requests that were granted, in
their order, and the refused ones have left no trace. No name and no bit is given out twice, so
there are never more control lines than bits, and a control line keeps its bit for good. -/
namespace ControlStore

abbrev Request : Type := String × Nat

namespace Registry

/-- The registry after a request. One that is refused leaves it as it was. -/
def request (r : Registry) (q : Request) : Registry :=
  match r.register q.1 q.2 with
  | .ok r' => r'
  | .error _ => r

def requestAll (r : Registry) (qs : List Request) : Registry := qs.foldl request r

/-- The requests that are granted, each by the registry that it finds. -/
def granted (r : Registry) : List Request → List Request
  | [] => []
  | q :: qs =>
    if (r.register q.1 q.2).isOk then q :: (r.request q).granted qs else (r.request q).granted qs

section Request

variable {r r' : Registry} {q : Request}

theorem request_of_ok (h : r.register q.1 q.2 = .ok r') : r.request q = r' := by
  rw [request,h]

theorem request_of_error {e : RegisterError} (h : r.register q.1 q.2 = .error e) :
    r.request q = r := by
  rw [request,h]

theorem granted_cons_of_ok (qs : List Request) (h : r.register q.1 q.2 = .ok r') :
    r.granted (q :: qs) = q :: r'.granted qs := by
  rw [granted,request_of_ok h,h]
  rfl

theorem granted_cons_of_error {e : RegisterError} (qs : List Request)
    (h : r.register q.1 q.2 = .error e) : r.granted (q :: qs) = r.granted qs := by
  rw [granted,request_of_error h,h]
  rfl

theorem exists_register_iff :
    (∃ r', r.register q.1 q.2 = .ok r') ↔ Assignable (r.pairs ++ [q]) := by
  simp only [register_eq_ok]
  constructor
  · rintro ⟨r',h⟩
    exact h ▸ r'.assignable_pairs
  · intro h
    exact exists_pairs_eq h

end Request

section History

variable (r : Registry)

theorem requestAll_append (qs qs' : List Request) :
    r.requestAll (qs ++ qs') = (r.requestAll qs).requestAll qs' :=
  List.foldl_append

/-- A registry holds the granted requests behind those that it held before. -/
theorem pairs_requestAll (qs : List Request) :
    (r.requestAll qs).pairs = r.pairs ++ r.granted qs := by
  induction qs generalizing r with
  | nil => simp [requestAll,granted]
  | cons q qs ih =>
    have hcons : r.requestAll (q :: qs) = (r.request q).requestAll qs := rfl
    rw [hcons,ih]
    cases h : r.register q.1 q.2 with
    | ok r' =>
      rw [request_of_ok h,granted_cons_of_ok qs h,register_eq_ok.mp h,List.append_assoc,
        List.singleton_append]
    | error e => rw [request_of_error h,granted_cons_of_error qs h]

theorem requestAll_granted (qs : List Request) : r.requestAll (r.granted qs) = r.requestAll qs := by
  induction qs generalizing r with
  | nil => rfl
  | cons q qs ih =>
    have hcons : r.requestAll (q :: qs) = (r.request q).requestAll qs := rfl
    rw [hcons]
    cases h : r.register q.1 q.2 with
    | ok r' =>
      have hrest : r.requestAll (q :: r'.granted qs) =
          (r.request q).requestAll (r'.granted qs) := rfl
      rw [granted_cons_of_ok qs h,hrest,request_of_ok h,ih]
    | error e => rw [granted_cons_of_error qs h,request_of_error h,ih]

end History

section Answers

variable (r : Registry)

theorem size_eq_length_pairs : r.size = r.pairs.length := by
  rw [size,pairs,List.length_map]

/-- There are not more control lines than bits, because no two of them share one. -/
theorem size_le : r.size ≤ wordWidth := by
  have hcard := r.bits_nodup.length_le_card
  rwa [List.length_map,Fintype.card_fin] at hcard

theorem resolve_eq_ok_iff_mem_pairs {name : String} {bit : Fin wordWidth} :
    r.resolve name = .ok bit ↔ (name,bit.val) ∈ r.pairs := by
  rw [resolve_eq_ok_iff,bit?_eq_some_iff,pairs,List.mem_map]
  simp only [Prod.mk.injEq,Fin.ext_iff]

theorem exists_resolve_error_iff {name : String} :
    (∃ e, r.resolve name = .error e) ↔ name ∉ r.pairs.map (·.1) := by
  have hnames : name ∈ r.pairs.map (·.1) ↔ r.Registered name := by
    simp [pairs,Registered]
  simp only [resolve_eq_error_iff,exists_and_left,exists_eq,and_true,hnames]

end Answers

/-- A registry is the record of requests: it has their control lines in their order and answers from
them. Names and bits are distinct, all bits lie in the word, and sorting by bits is strict. -/
structure Records (r : Registry) (qs : List Request) : Prop where
  pairs : r.pairs = qs
  names : (qs.map (·.1)).Nodup
  bits : (qs.map (·.2)).Nodup
  inWord : ∀ q ∈ qs, q.2 < wordWidth
  size : r.size = qs.length
  size_le : r.size ≤ wordWidth
  resolve_ok : ∀ name bit, r.resolve name = .ok bit ↔ (name,bit.val) ∈ qs
  resolve_error : ∀ name, (∃ e, r.resolve name = .error e) ↔ name ∉ qs.map (·.1)
  byBit_perm : r.byBit.Perm r.signals
  byBit_increasing : r.byBit.Pairwise (fun a b => a.bit < b.bit)

theorem records_pairs (r : Registry) : r.Records r.pairs where
  pairs := rfl
  names := r.assignable_pairs.names
  bits := r.assignable_pairs.bits
  inWord := r.assignable_pairs.inWord
  size := r.size_eq_length_pairs
  size_le := r.size_le
  resolve_ok _ _ := r.resolve_eq_ok_iff_mem_pairs
  resolve_error _ := r.exists_resolve_error_iff
  byBit_perm := r.byBit_perm
  byBit_increasing := r.pairwise_byBit

/-- After any history a registry is the record of the granted requests. A request is granted exactly
when its bit is in the word and neither its name nor its bit is in use; it then resolves to its bit
whatever is requested later. A request that is refused changes nothing, and a history without the
refused requests ends in the same registry. -/
theorem records_granted (qs : List Request) :
    (empty.requestAll qs).Records (empty.granted qs) ∧
    empty.requestAll (empty.granted qs) = empty.requestAll qs ∧
    ∀ q, ((∃ r, (empty.requestAll qs).register q.1 q.2 = .ok r) ↔
        Assignable (empty.granted qs ++ [q])) ∧
      (∀ e, (empty.requestAll qs).register q.1 q.2 = .error e →
        empty.requestAll (qs ++ [q]) = empty.requestAll qs) ∧
      ∀ r, (empty.requestAll qs).register q.1 q.2 = .ok r →
        ∀ later, ∃ bit, (empty.requestAll (qs ++ q :: later)).resolve q.1 = .ok bit ∧
          bit.val = q.2 := by
  have hpairs : (empty.requestAll qs).pairs = empty.granted qs := pairs_requestAll empty qs
  refine ⟨hpairs ▸ records_pairs _,requestAll_granted empty qs,fun q => ⟨?_,?_,?_⟩⟩
  · rw [exists_register_iff,hpairs]
  · intro e h
    rw [requestAll_append]
    exact request_of_error h
  · intro r h later
    have hbit : q.2 < wordWidth := (signals_of_register h).1
    have hlater : empty.requestAll (qs ++ q :: later) = r.requestAll later := by
      rw [requestAll_append,← request_of_ok h]
      rfl
    refine ⟨⟨q.2,hbit⟩,?_,rfl⟩
    rw [hlater,resolve_eq_ok_iff_mem_pairs,pairs_requestAll,register_eq_ok.mp h]
    simp

/-- The name of the second request, the bit of the third and the range of the fourth are refused. -/
def clashes : List Request := [("load",3),("load",4),("store",3),("wide",32),("store",31)]

theorem records_granted_clashes :
    (empty.requestAll clashes).Records [("load",3),("store",31)] ∧
    empty.requestAll (clashes ++ [("load",7)]) = empty.requestAll clashes ∧
    ∃ bit, (empty.requestAll (clashes ++ [("halt",0),("halt",9)])).resolve "halt" = .ok bit ∧
      bit.val = 0 := by
  obtain ⟨hrecords,-,hnext⟩ := records_granted clashes
  have hgranted : empty.granted clashes = [("load",3),("store",31)] := by decide
  have htaken : (empty.requestAll clashes).register "load" 7 = .error (.nameTaken "load") := by
    decide
  obtain ⟨r,hfree⟩ : ∃ r, (empty.requestAll clashes).register "halt" 0 = .ok r :=
    (hnext ("halt",0)).1.mpr (hgranted ▸ ⟨by decide,by decide,by decide⟩)
  exact ⟨hgranted ▸ hrecords,(hnext ("load",7)).2.1 _ htaken,
    (hnext ("halt",0)).2.2 r hfree [("halt",9)]⟩

end Registry
end ControlStore
