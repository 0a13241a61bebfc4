import DimEquiv.Dimension
import DimEquiv.Proofs.ClassCollapse
import Mathlib.Data.List.Induction
import Mathlib.Data.List.Perm.Basic
import Mathlib.Logic.Relation

/-!
# Eager union computes connected components

Merges are requested between dimensions of recorded arrays. After any number of requests two known
dimensions have one class exactly when equalities that held at the start and granted requests connect
them, and every size value that a class had is among those of the class that it has become.
-/

namespace DimEquiv

open Relation

/-- The size values of all entries, entry after entry. -/
def Store.allSizes (s : Store) : List SizeValue := s.classSizes.toList.flatMap Prod.snd

/-- An entry may be taken out of a table and put in front of the others. -/
theorem Table.flatMap_values_perm {κ α : Type} [DecidableEq κ] (t : Table κ (List α)) (k : κ) :
    (t.toList.flatMap Prod.snd).Perm
      ((t.find? k).getD [] ++ (t.erase k).toList.flatMap Prod.snd) := by
  have hnodup := t.nodup
  simp only [Table.find?, Table.erase]
  generalize t.toList = entries at hnodup
  induction entries with
  | nil => simp
  | cons entry entries ih =>
    obtain ⟨k', v⟩ := entry
    rw [List.map_cons, List.nodup_cons] at hnodup
    by_cases hk : k' = k
    · subst hk
      have hkeep : entries.filter (fun entry => entry.1 ≠ k') = entries := by
        rw [List.filter_eq_self]
        intro entry hentry
        have hne : entry.1 ≠ k' := fun he => hnodup.1 (List.mem_map.mpr ⟨entry, hentry, he⟩)
        exact decide_eq_true hne
      rw [List.lookup_cons_self, List.filter_cons_of_neg (by simp), hkeep, List.flatMap_cons]
      exact .refl _
    · have hlookup : ((k', v) :: entries).lookup k = entries.lookup k := by
        rw [List.lookup_cons, beq_false_of_ne (Ne.symm hk)]
      rw [hlookup, List.filter_cons_of_pos (by simpa using hk), List.flatMap_cons, List.flatMap_cons]
      exact ((ih hnodup.2).append_left v).trans (List.perm_append_comm_assoc _ _ _)

namespace Store

/-- A union loses no size value and repeats none. -/
theorem allSizes_unite {s : Store} (hs : s.Bounded) {c d : Int} (hne : c ≠ d) :
    (s.unite c d).2.allSizes.Perm s.allSizes := by
  have hnew : s.nextClass ∉ ((s.classSizes.erase c).erase d).keys := by
    rw [← Table.contains_iff_mem_keys]
    simp [Table.contains, find?_classSizes_of_le hs (Int.le_refl _)]
  have hunite : (s.unite c d).2.allSizes =
      ((s.classSizes.erase c).erase d).toList.flatMap Prod.snd ++ (s.sizesOf c ++ s.sizesOf d) := by
    simp only [allSizes, unite, allocate, renameClasses, Table.toList_insert_of_notMem _ _ _ hnew,
      List.flatMap_append, List.flatMap_singleton]
  have hd : ((s.classSizes.erase c).find? d).getD [] = s.sizesOf d := by
    rw [Table.find?_erase, if_neg hne, sizesOf]
  have hfirst := s.classSizes.flatMap_values_perm c
  have hsecond := (s.classSizes.erase c).flatMap_values_perm d
  rw [hd] at hsecond
  rw [hunite]
  refine List.perm_append_comm.trans ?_
  rw [List.append_assoc]
  exact (hsecond.symm.append_left (s.sizesOf c)).trans hfirst.symm

end Store

/-! ### Connected classes and connected dimensions -/

section

variable (s : Store) (granted : List MergeRequest)

/-- One of the granted requests is about dimensions that have these classes in `s`. -/
def Requested (c d : Int) : Prop :=
  ∃ r ∈ granted, s.classAt? r.first = some c ∧ s.classAt? r.second = some d

/-- Two dimensions that have one class in `s`, or of which a granted request asks that they have. -/
def Linked (d e : Dimension) : Prop :=
  (∃ c, c ≠ Shape.noClass ∧ s.classAt? d = some c ∧ s.classAt? e = some c) ∨
    ⟨d, e⟩ ∈ granted

/-- The requests in `granted` have made `t` of the store `s`; `rep c` is what the class `c` has
become. -/
structure Components (t : Store) (rep : Int → Int) : Prop where
  classAt?_eq : ∀ d, t.classAt? d = (s.classAt? d).map rep
  /-- Dimensions of known classes have the same one exactly when they are connected. -/
  connected : ∀ d e c c', t.classAt? d = some c → t.classAt? e = some c' →
    c ≠ Shape.noClass → c' ≠ Shape.noClass → (c = c' ↔ EqvGen (Linked s granted) d e)
  unknown : ∀ d, t.classAt? d = some Shape.noClass ↔ s.classAt? d = some Shape.noClass
  rep_eq_iff : ∀ c < s.nextClass, ∀ d < s.nextClass,
    (rep c = rep d ↔ EqvGen (Requested s granted) c d)
  allSizes : t.allSizes.Perm s.allSizes
  /-- A class has the size values of the classes that have become it, and of no others. -/
  sizes : ∀ k, ∃ members : List Int, members.Nodup ∧
    (∀ c, c ∈ members ↔ c < s.nextClass ∧ rep c = k) ∧
      (t.sizesOf k).Perm (members.flatMap s.sizesOf)

end

/-- The part of `Components` that one request after the other keeps. -/
structure Served (s : Store) (granted : List MergeRequest) (t : Store) (rep : Int → Int) : Prop where
  collapse : s.Collapse t rep
  exists_classAt? : ∀ r ∈ granted, ∃ c d, s.classAt? r.first = some c ∧ s.classAt? r.second = some d
  rep_eq_iff : ∀ c < s.nextClass, ∀ d < s.nextClass,
    (rep c = rep d ↔ EqvGen (Requested s granted) c d)
  rep_eq_noClass_iff : ∀ c < s.nextClass, (rep c = Shape.noClass ↔ c = Shape.noClass)
  allSizes : t.allSizes.Perm s.allSizes

section

variable {s t : Store} {granted : List MergeRequest} {rep : Int → Int}

theorem Store.Bounded.classAt?_lt (hs : s.Bounded) {d : Dimension} {c : Int}
    (h : s.classAt? d = some c) : c < s.nextClass := by
  obtain ⟨shape, hshape, hc⟩ := Option.bind_eq_some_iff.mp h
  exact hs.lt_of_recorded d.array shape hshape c (List.mem_of_getElem? hc)

theorem Store.Collapse.classAt?_eq (h : s.Collapse t rep) (d : Dimension) :
    t.classAt? d = (s.classAt? d).map rep := by
  simp only [Store.classAt?, h.find?_shapes]
  cases s.shapes.find? d.array <;> simp

theorem Requested.mono {granted' : List MergeRequest} (hsub : ∀ r ∈ granted, r ∈ granted')
    {c d : Int} (h : EqvGen (Requested s granted) c d) : EqvGen (Requested s granted') c d :=
  EqvGen.mono (fun _ _ ⟨r, hr, hrd⟩ => ⟨r, hsub r hr, hrd⟩) _ _ h

theorem requested_append {r : MergeRequest} {c d : Int} :
    Requested s (granted ++ [r]) c d ↔ Requested s granted c d ∨
      (s.classAt? r.first = some c ∧ s.classAt? r.second = some d) := by
  simp only [Requested, List.mem_append, List.mem_singleton, or_and_right, exists_or,
    exists_eq_left]

namespace Served

theorem start (hs : s.Bounded) : Served s [] s id where
  collapse := .refl hs
  exists_classAt? := by simp
  rep_eq_iff := by
    intro c _ d _
    constructor
    · rintro rfl
      exact .refl _
    · refine map_eq_of_eqvGen (fun a b hab => ?_)
      obtain ⟨r, hr, -⟩ := hab
      cases hr
  rep_eq_noClass_iff := fun _ _ => Iff.rfl
  allSizes := .refl _

theorem exists_classAt?_append (h : Served s granted t rep) {r : MergeRequest} {c d : Int}
    (hc : s.classAt? r.first = some c) (hd : s.classAt? r.second = some d) :
    ∀ r' ∈ granted ++ [r], ∃ c d, s.classAt? r'.first = some c ∧ s.classAt? r'.second = some d := by
  intro r' hr'
  rcases List.mem_append.mp hr' with hr' | hr'
  · exact h.exists_classAt? r' hr'
  · rw [List.mem_singleton.mp hr']
    exact ⟨c, d, hc, hd⟩

theorem rep_eq_of_requested (h : Served s granted t rep) (hs : s.Bounded) {c d : Int}
    (hcd : Requested s granted c d) : rep c = rep d := by
  have ⟨r, _, hc, hd⟩ := hcd
  exact (h.rep_eq_iff c (hs.classAt?_lt hc) d (hs.classAt?_lt hd)).mpr (.rel c d hcd)

/-- A request between dimensions of one class connects nothing new. -/
theorem unchanged (h : Served s granted t rep) (hs : s.Bounded) {r : MergeRequest} {c d : Int}
    (hc : s.classAt? r.first = some c) (hd : s.classAt? r.second = some d) (heq : rep c = rep d) :
    Served s (granted ++ [r]) t rep where
  collapse := h.collapse
  exists_classAt? := h.exists_classAt?_append hc hd
  rep_eq_iff := by
    intro a ha b hb
    rw [h.rep_eq_iff a ha b hb]
    refine ⟨Requested.mono (fun r hr => List.mem_append_left _ hr), fun hab => ?_⟩
    rw [← h.rep_eq_iff a ha b hb]
    refine map_eq_of_eqvGen (fun a b hab => ?_) hab
    rcases requested_append.mp hab with hab | ⟨ha, hb⟩
    · exact h.rep_eq_of_requested hs hab
    · rwa [← Option.some.inj (hc.symm.trans ha), ← Option.some.inj (hd.symm.trans hb)]
  rep_eq_noClass_iff := h.rep_eq_noClass_iff
  allSizes := h.allSizes

/-- A request between dimensions of two classes connects what these classes connect. -/
theorem unite (h : Served s granted t rep) (hs : s.Bounded) {r : MergeRequest} {c d : Int}
    (hc : s.classAt? r.first = some c) (hd : s.classAt? r.second = some d) (hne : rep c ≠ rep d)
    (hcu : c ≠ Shape.noClass) (hdu : d ≠ Shape.noClass) :
    Served s (granted ++ [r]) (t.unite (rep c) (rep d)).2
      (Store.Collapse.uniteRep rep (rep c) (rep d) t.nextClass) where
  collapse := h.collapse.unite (hs.classAt?_lt hc) (hs.classAt?_lt hd) hne
  exists_classAt? := h.exists_classAt?_append hc hd
  rep_eq_iff := by
    have hsub : ∀ r' ∈ granted, r' ∈ granted ++ [r] := fun _ => List.mem_append_left _
    have hrel : EqvGen (Requested s (granted ++ [r])) c d :=
      .rel c d (requested_append.mpr (.inr ⟨hc, hd⟩))
    -- Whatever has become one of the two classes is connected to the first.
    have hconn : ∀ a < s.nextClass, rep a = rep c ∨ rep a = rep d →
        EqvGen (Requested s (granted ++ [r])) a c := by
      rintro a ha (hac | had)
      · exact Requested.mono hsub ((h.rep_eq_iff a ha c (hs.classAt?_lt hc)).mp hac)
      · have had := Requested.mono hsub ((h.rep_eq_iff a ha d (hs.classAt?_lt hd)).mp had)
        exact .trans _ _ _ had (.symm _ _ hrel)
    intro a ha b hb
    constructor
    · intro hab
      rcases (Store.Collapse.uniteRep_eq_iff (h.collapse.rep_lt a ha) (h.collapse.rep_lt b hb)).mp hab with
        hab | ⟨hina, hinb⟩
      · exact Requested.mono hsub ((h.rep_eq_iff a ha b hb).mp hab)
      · exact .trans _ _ _ (hconn a ha hina) (.symm _ _ (hconn b hb hinb))
    · refine map_eq_of_eqvGen (fun a b hab => ?_)
      rcases requested_append.mp hab with hab | ⟨ha, hb⟩
      · exact Store.Collapse.uniteRep_congr _ _ _ (h.rep_eq_of_requested hs hab)
      · obtain rfl := Option.some.inj (hc.symm.trans ha)
        obtain rfl := Option.some.inj (hd.symm.trans hb)
        rw [Store.Collapse.uniteRep_of_mem (.inl rfl), Store.Collapse.uniteRep_of_mem (.inr rfl)]
  rep_eq_noClass_iff := by
    intro a ha
    have hnext : t.nextClass ≠ Shape.noClass :=
      Int.ne_of_gt (h.collapse.bounded hs).noClass_lt
    by_cases hin : rep a = rep c ∨ rep a = rep d
    · have hau : a ≠ Shape.noClass := by
        rw [Ne, ← h.rep_eq_noClass_iff a ha]
        rcases hin with he | he <;> rw [he, h.rep_eq_noClass_iff _ (hs.classAt?_lt ‹_›)]
        · exact hcu
        · exact hdu
      simp [Store.Collapse.uniteRep_of_mem hin, hnext, hau]
    · rw [Store.Collapse.uniteRep_of_notMem hin, h.rep_eq_noClass_iff a ha]
  allSizes := (Store.allSizes_unite (h.collapse.bounded hs) hne).trans h.allSizes

/-- A served request is granted or leaves everything as it is. -/
theorem serve (h : Served s granted t rep) (hs : s.Bounded) (r : MergeRequest)
    (hfirst : (s.classAt? r.first).isSome) (hsecond : (s.classAt? r.second).isSome) :
    ∃ rep', Served s (granted ++ (MergeRequest.serveAll [r] t).1)
      (MergeRequest.serveAll [r] t).2 rep' := by
  obtain ⟨c, hc⟩ := Option.isSome_iff_exists.mp hfirst
  obtain ⟨d, hd⟩ := Option.isSome_iff_exists.mp hsecond
  have hc' : t.classAt? r.first = some (rep c) := by rw [h.collapse.classAt?_eq, hc, Option.map_some]
  have hd' : t.classAt? r.second = some (rep d) := by rw [h.collapse.classAt?_eq, hd, Option.map_some]
  simp only [MergeRequest.serveAll]
  rcases MergeRequest.run_serve hc' hd' with ⟨heq, hrun⟩ | ⟨hne, hcu, hdu, hrun⟩ | ⟨-, -, hrun⟩
  · rw [hrun]
    exact ⟨rep, h.unchanged hs hc hd heq⟩
  · rw [hrun]
    rw [Ne, h.rep_eq_noClass_iff c (hs.classAt?_lt hc)] at hcu
    rw [Ne, h.rep_eq_noClass_iff d (hs.classAt?_lt hd)] at hdu
    exact ⟨_, h.unite hs hc hd hne hcu hdu⟩
  · rw [hrun, List.append_nil]
    exact ⟨rep, h⟩

/-- Classes that requests connect are those of connected dimensions, unless they are one. -/
theorem exists_linked (h : Served s granted t rep) (hs : s.Bounded) {c d : Int}
    (hcd : EqvGen (Requested s granted) c d) : (c = Shape.noClass ↔ d = Shape.noClass) ∧
      (c ≠ Shape.noClass → c = d ∨ ∃ x y, s.classAt? x = some c ∧ s.classAt? y = some d ∧
        EqvGen (Linked s granted) x y) := by
  induction hcd with
  | rel c d hcd =>
    have ⟨r, hr, hc, hd⟩ := hcd
    constructor
    · rw [← h.rep_eq_noClass_iff c (hs.classAt?_lt hc), h.rep_eq_of_requested hs hcd,
        h.rep_eq_noClass_iff d (hs.classAt?_lt hd)]
    · exact fun _ => .inr ⟨r.first, r.second, hc, hd, .rel _ _ (.inr hr)⟩
  | refl c => exact ⟨Iff.rfl, fun _ => .inl rfl⟩
  | symm c d _ ih =>
    refine ⟨ih.1.symm, fun hd => ?_⟩
    rcases ih.2 (fun hc => hd (ih.1.mp hc)) with he | ⟨x, y, hx, hy, hxy⟩
    · exact .inl he.symm
    · exact .inr ⟨y, x, hy, hx, .symm _ _ hxy⟩
  | trans c d e _ _ ih ih' =>
    refine ⟨ih.1.trans ih'.1, fun hc => ?_⟩
    have hd : d ≠ Shape.noClass := fun hd => hc (ih.1.mpr hd)
    rcases ih.2 hc with rfl | ⟨x, y, hx, hy, hxy⟩
    · exact ih'.2 hc
    rcases ih'.2 hd with rfl | ⟨x', y', hx', hy', hxy'⟩
    · exact .inr ⟨x, y, hx, hy, hxy⟩
    · have hyx : EqvGen (Linked s granted) y x' := .rel _ _ (.inl ⟨d, hd, hy, hx'⟩)
      exact .inr ⟨x, y', hx, hy', .trans _ _ _ hxy (.trans _ _ _ hyx hxy')⟩

/-- Linked dimensions have the same class in the end. -/
theorem classAt?_eq_of_linked (h : Served s granted t rep) (hs : s.Bounded) {d e : Dimension}
    (hde : EqvGen (Linked s granted) d e) : t.classAt? d = t.classAt? e := by
  refine map_eq_of_eqvGen (fun d e hde => ?_) hde
  rw [h.collapse.classAt?_eq, h.collapse.classAt?_eq]
  rcases hde with ⟨c, -, hd, he⟩ | hr
  · rw [hd, he]
  · obtain ⟨c, c', hd, he⟩ := h.exists_classAt? _ hr
    have hreq : Requested s granted c c' := ⟨_, hr, hd, he⟩
    rw [hd, he, Option.map_some, Option.map_some, h.rep_eq_of_requested hs hreq]

theorem components (h : Served s granted t rep) (hs : s.Bounded) : Components s granted t rep where
  classAt?_eq := h.collapse.classAt?_eq
  connected := by
    intro d e c c' hd he hc _
    refine ⟨fun heq => ?_, fun hde => ?_⟩
    · rw [h.collapse.classAt?_eq, Option.map_eq_some_iff] at hd he
      obtain ⟨a, hd, rfl⟩ := hd
      obtain ⟨b, he, rfl⟩ := he
      have ha := hs.classAt?_lt hd
      have hknown : a ≠ Shape.noClass := fun hn => hc ((h.rep_eq_noClass_iff a ha).mpr hn)
      have hab := (h.rep_eq_iff a ha b (hs.classAt?_lt he)).mp heq
      rcases (h.exists_linked hs hab).2 hknown with rfl | ⟨x, y, hx, hy, hxy⟩
      · exact .rel _ _ (.inl ⟨a, hknown, hd, he⟩)
      · have hb : b ≠ Shape.noClass := fun hn => hknown ((h.exists_linked hs hab).1.mpr hn)
        have hdx : EqvGen (Linked s granted) d x := .rel _ _ (.inl ⟨a, hknown, hd, hx⟩)
        have hye : EqvGen (Linked s granted) y e := .rel _ _ (.inl ⟨b, hb, hy, he⟩)
        exact .trans _ _ _ hdx (.trans _ _ _ hxy hye)
    · rw [h.classAt?_eq_of_linked hs hde] at hd
      exact Option.some.inj (hd.symm.trans he)
  unknown := by
    intro d
    rw [h.collapse.classAt?_eq, Option.map_eq_some_iff]
    constructor
    · rintro ⟨c, hc, hrep⟩
      rw [hc, (h.rep_eq_noClass_iff c (hs.classAt?_lt hc)).mp hrep]
    · intro hd
      exact ⟨_, hd, (h.rep_eq_noClass_iff _ (hs.classAt?_lt hd)).mpr rfl⟩
  rep_eq_iff := h.rep_eq_iff
  allSizes := h.allSizes
  sizes := by
    intro k
    by_cases hk : ∃ c < s.nextClass, rep c = k
    · obtain ⟨c, hc, rfl⟩ := hk
      exact h.collapse.sizes c hc
    · push Not at hk
      refine ⟨[], .nil, fun c => ?_, ?_⟩
      · simpa using hk c
      · rw [Store.sizesOf, h.collapse.dropped k hk]
        exact .refl _

end Served

end

namespace MergeRequest

variable {s : Store} {rs : List MergeRequest}

theorem exists_served (hs : s.Bounded)
    (hrs : ∀ r ∈ rs, (s.classAt? r.first).isSome ∧ (s.classAt? r.second).isSome) :
    ∃ rep, Served s (serveAll rs s).1 (serveAll rs s).2 rep := by
  induction rs using List.reverseRecOn with
  | nil => exact ⟨id, .start hs⟩
  | append_singleton rs r ih =>
    obtain ⟨rep, h⟩ := ih (fun r hr => hrs r (List.mem_append_left _ hr))
    obtain ⟨hfirst, hsecond⟩ := hrs r (by simp)
    rw [serveAll_append]
    exact h.serve hs r hfirst hsecond

/-- What one request answers in the store `u`: it is refused, and changes nothing, when exactly one
of the two dimensions is unknown. -/
def Answered (u : Store) (r : MergeRequest) : Prop :=
  ∃ c d, u.classAt? r.first = some c ∧ u.classAt? r.second = some d ∧
    (c = Shape.noClass → d ≠ Shape.noClass → r.serve.run u = (.error (.invalidMerge d), u)) ∧
    (c ≠ Shape.noClass → d = Shape.noClass → r.serve.run u = (.error (.invalidMerge c), u)) ∧
    ((c = Shape.noClass ↔ d = Shape.noClass) → ∃ k u', r.serve.run u = (.ok k, u'))

theorem answered {u : Store} {r : MergeRequest} {c d : Int} (hc : u.classAt? r.first = some c)
    (hd : u.classAt? r.second = some d) : Answered u r := by
  refine ⟨c, d, hc, hd, ?_⟩
  rcases run_serve hc hd with ⟨rfl, hrun⟩ | ⟨-, hcu, hdu, hrun⟩ | ⟨hne, hu, hrun⟩
  · exact ⟨fun h h' => absurd h h', fun h h' => absurd h' h, fun _ => ⟨_, _, hrun⟩⟩
  · exact ⟨fun h => absurd h hcu, fun _ h => absurd h hdu, fun _ => ⟨_, _, hrun⟩⟩
  · refine ⟨fun h _ => ?_, fun h _ => ?_, fun h => ?_⟩
    · rw [hrun, if_pos h]
    · rw [hrun, if_neg h]
    · rw [← h, or_self] at hu
      exact absurd (hu.trans (h.mp hu).symm) hne

/-- Every request is answered by what its two classes are when it is served, and in the end the
classes are the connected components. -/
theorem serveAll_unites_components (hs : s.Bounded)
    (hrs : ∀ r ∈ rs, (s.classAt? r.first).isSome ∧ (s.classAt? r.second).isSome) :
    (∀ before r after, rs = before ++ r :: after → Answered (serveAll before s).2 r) ∧
      ∃ rep, Components s (serveAll rs s).1 (serveAll rs s).2 rep := by
  constructor
  · rintro before r after rfl
    obtain ⟨rep, h⟩ := exists_served hs (fun r hr => hrs r (List.mem_append_left _ hr))
    obtain ⟨hfirst, hsecond⟩ := hrs r (by simp)
    obtain ⟨c, hc⟩ := Option.isSome_iff_exists.mp hfirst
    obtain ⟨d, hd⟩ := Option.isSome_iff_exists.mp hsecond
    apply answered
    · rw [h.collapse.classAt?_eq, hc, Option.map_some]
    · rw [h.collapse.classAt?_eq, hd, Option.map_some]
  · obtain ⟨rep, h⟩ := exists_served hs hrs
    exact ⟨rep, h.components hs⟩

/-- Three arrays with size values for some of their classes; a dimension of the second is unknown. -/
def meshStore : Store where
  shapes := .ofList [("a", [1, 2]), ("b", [3, -1]), ("c", [2])]
  sizeVars := .empty
  classSizes := .ofList [(0, [.literal 1]), (1, [.var "n"]), (3, [.var "m", .literal 7])]
  nextClass := 4

/-- The second request is refused. -/
def meshRequests : List MergeRequest :=
  [⟨⟨"a", 0⟩, ⟨"b", 0⟩⟩, ⟨⟨"b", 1⟩, ⟨"a", 0⟩⟩, ⟨⟨"c", 0⟩, ⟨"b", 0⟩⟩]

theorem serveAll_unites_components_mesh :
    meshStore.Bounded ∧
      (∀ r ∈ meshRequests, (meshStore.classAt? r.first).isSome ∧
        (meshStore.classAt? r.second).isSome) ∧
      Answered (serveAll (meshRequests.take 1) meshStore).2 ⟨⟨"b", 1⟩, ⟨"a", 0⟩⟩ ∧
      (serveAll meshRequests meshStore).2.classAt? ⟨"a", 1⟩ = some 5 ∧
      ∃ rep, Components meshStore (serveAll meshRequests meshStore).1
        (serveAll meshRequests meshStore).2 rep := by
  have hs : meshStore.Bounded := by decide
  have hrs : ∀ r ∈ meshRequests, (meshStore.classAt? r.first).isSome ∧
      (meshStore.classAt? r.second).isSome := by decide
  obtain ⟨hanswered, hcomponents⟩ := serveAll_unites_components hs hrs
  exact ⟨hs, hrs, hanswered [_] _ [_] rfl, by decide, hcomponents⟩

end MergeRequest

end DimEquiv
