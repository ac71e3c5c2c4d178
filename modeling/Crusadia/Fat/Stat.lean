import Crusadia.Fat.Dirs
import Crusadia.Vfs.Normalize

/-!
# Crusadia.Fat.Stat

**Paths on a FAT volume**: what `fat32_stat` finds, against what the path denotes.

A component is copied into a buffer of thirteen bytes, and the scan goes on behind what was
copied: a component of more than twelve characters is read as several (`pieces`). The names of
records are never longer, so such a path should denote nothing; `fat32_stat` may find something
at its pieces. Behind the last component one separator is skipped, and whatever is left, a second
separator too, makes the driver ask for a directory (`fat32Stat_eq`).
-/

namespace Crusadia

/-! ### Pieces -/

/-- A component as `fat32_stat` reads it: twelve characters at a time. -/
def cut (t : List Byte) : List (List Byte) :=
  if t = [] then [] else t.take 12 :: cut (t.drop 12)
termination_by t.length
decreasing_by
  rw [List.length_drop]
  have := List.length_pos_iff.mpr ‹t ≠ []›
  omega

/-- The components of a path as `fat32_stat` reads them. -/
def pieces (p : List Byte) : List (List Byte) := (comps p).flatMap cut

@[simp] theorem cut_nil : cut [] = [] := by
  rw [cut, if_pos rfl]

theorem cut_of_ne_nil {t : List Byte} (h : t ≠ []) : cut t = t.take 12 :: cut (t.drop 12) := by
  rw [cut, if_neg h]

theorem cut_of_length_le {t : List Byte} (h : t ≠ []) (hlen : t.length ≤ 12) : cut t = [t] := by
  rw [cut_of_ne_nil h, List.take_of_length_le hlen, List.drop_eq_nil_of_le hlen, cut_nil]

variable {p : List Byte}

theorem pieces_eq_nil_iff : pieces p = [] ↔ comps p = [] := by
  rw [pieces, List.flatMap_eq_nil_iff]
  refine ⟨fun h => List.eq_nil_iff_forall_not_mem.mpr fun c hc => ?_, fun h => by simp [h]⟩
  have := h c hc
  rw [cut_of_ne_nil (isComp_of_mem_comps hc).1.1] at this
  simp at this

/-- Components that fit are read as they are. -/
theorem pieces_eq_comps (h : ∀ c ∈ comps p, c.length ≤ 12) : pieces p = comps p := by
  have hcut : ∀ c ∈ comps p, cut c = [c] := fun c hc =>
    cut_of_length_le (isComp_of_mem_comps hc).1.1 (h c hc)
  rw [pieces, List.flatMap_congr hcut]
  simp

@[simp] theorem pieces_slash_cons (p : List Byte) : pieces (slash :: p) = pieces p := by
  rw [pieces, comps_slash_cons, pieces]

/-- A text that does not begin with a separator has a first component. -/
theorem exists_comp {b : Byte} (hb : b ≠ slash) :
    ∃ d r, b :: p = d ++ r ∧ IsComp d ∧ (r = [] ∨ r.head? = some slash) := by
  obtain ⟨d, r, heq, hd, hr⟩ := first_slash (b :: p)
  refine ⟨d, r, heq, ⟨fun h0 => ?_, hd⟩, hr⟩
  rw [h0, List.nil_append] at heq
  rcases hr with rfl | hr
  · cases heq
  · rw [← heq, List.head?_cons] at hr
    exact hb (Option.some.inj hr)

/-- Only separators have no component. -/
theorem comps_eq_nil_iff : comps p = [] ↔ ∀ b ∈ p, b = slash := by
  induction p with
  | nil => simp
  | cons b p ih =>
    by_cases hb : b = slash
    · rw [hb, comps_slash_cons, ih, List.forall_mem_cons]
      exact (and_iff_right rfl).symm
    · obtain ⟨d, r, heq, hd, hr⟩ := exists_comp (p := p) hb
      rw [heq, comps_append hd hr, ← heq]
      exact ⟨nofun, fun h => absurd (h b List.mem_cons_self) hb⟩

/-- The path ends in two separators. -/
def Trailing (p : List Byte) : Prop := [slash, slash] <:+ p

instance (p : List Byte) : Decidable (Trailing p) := inferInstanceAs (Decidable (_ <:+ _))

theorem trailing_append {x r : List Byte} (h : comps r ≠ []) : Trailing (x ++ r) ↔ Trailing r := by
  refine ⟨fun ht => ?_, fun ht => ht.trans (List.suffix_append x r)⟩
  rcases List.suffix_or_suffix_of_suffix ht (List.suffix_append x r) with hs | hs
  · exact hs
  · -- otherwise `r` has only separators
    refine absurd (comps_eq_nil_iff.mpr fun b hb => ?_) h
    simpa using hs.subset hb

theorem not_trailing_comp {c : List Byte} (h : IsComp c) :
    ¬ Trailing c ∧ ¬ Trailing (c ++ [slash]) := by
  refine ⟨fun ht => h.2 (ht.subset List.mem_cons_self), fun ht => ?_⟩
  obtain ⟨q, hq⟩ := ht
  have hc : q ++ [slash] = c := (List.append_left_inj [slash]).mp (by simpa using hq)
  exact h.2 (hc ▸ by simp)

namespace Fat

/-- One component of the loop: the piece `c` of the path `p`, and the rest `r` that the loop goes
on with. -/
inductive Next (p : List Byte) : List Byte → List Byte → Prop
  | sep {r : List Byte} (h : p = slash :: r) : Next p [] r
  | last {c : List Byte} (hc : IsComp c) (hlen : c.length ≤ 12) (h : p = c) : Next p c []
  | comp {c r : List Byte} (hc : IsComp c) (hlen : c.length ≤ 12) (h : p = c ++ slash :: r) :
    Next p c r
  | cut {c d r : List Byte} (hc : IsComp c) (hlen : c.length = 12) (hd : IsComp d)
      (hr : r = [] ∨ r.head? = some slash) (h : p = c ++ (d ++ r)) : Next p c (d ++ r)

/-- The characters of a component are no separators for `fat32_stat`. -/
theorem isSep_eq_false {b : Byte} (hb : b ≠ slash) (hg : b ≠ 0x3E) : isSep b = false := by
  rw [isSep, beq_eq_false_iff_ne.mpr hb, beq_eq_false_iff_ne.mpr hg, Bool.or_false]

theorem next_nextComp (hp : p ≠ []) (hsep : (0x3E : Byte) ∉ p) :
    Next p (nextComp p).1 (nextComp p).2 := by
  obtain ⟨b, p, rfl⟩ := List.exists_cons_of_ne_nil hp
  by_cases hb : b = slash
  · subst hb
    have h : nextComp (slash :: p) = ([], p) := rfl
    rw [h]
    exact Next.sep rfl
  obtain ⟨d, r, heq, hd, hr⟩ := exists_comp (p := p) hb
  rw [heq] at hsep ⊢
  have hall : ∀ c ∈ d, (!isSep c) = true := fun c hc => by
    rw [isSep_eq_false (fun h => hd.2 (h ▸ hc)) fun h => hsep (List.mem_append_left r (h ▸ hc))]
    rfl
  have hrest : r.takeWhile (fun c => !isSep c) = [] := by
    rcases hr with rfl | hr
    · rfl
    · obtain ⟨r', rfl⟩ := List.head?_eq_some_iff.mp hr
      rfl
  have hmax : fat32MaxName - 1 = 12 := rfl
  rcases Nat.lt_or_ge 12 d.length with hlong | hshort
  · -- the buffer is full
    have hcomp : ((d ++ r).take 12).takeWhile (fun c => !isSep c) = d.take 12 := by
      rw [List.take_append_of_le_length (by omega)]
      exact List.takeWhile_eq_self_iff.mpr fun c hc => hall c (List.mem_of_mem_take hc)
    have hlen : (d.take 12).length = 12 := by rw [List.length_take]; omega
    have hd' : IsComp (d.drop 12) := ⟨by simpa using hlong, fun h => hd.2 (List.mem_of_mem_drop h)⟩
    obtain ⟨x, t, ht⟩ := List.exists_cons_of_ne_nil hd'.1
    have hx : isSep x = false := by
      simpa using hall x (List.mem_of_mem_drop (ht ▸ List.mem_cons_self : x ∈ d.drop 12))
    have hnext : nextComp (d ++ r) = (d.take 12, d.drop 12 ++ r) := by
      rw [nextComp, hmax, hcomp, hlen, List.drop_append_of_le_length (by omega), ht]
      simp only [List.cons_append, hx, Bool.false_eq_true, if_false]
    rw [hnext]
    refine Next.cut ⟨by rw [← List.length_pos_iff, hlen]; decide,
      fun h => hd.2 (List.mem_of_mem_take h)⟩ hlen hd' hr ?_
    rw [← List.append_assoc, List.take_append_drop]
  · have hcomp : ((d ++ r).take 12).takeWhile (fun c => !isSep c) = d := by
      rw [List.take_append, List.take_of_length_le hshort, List.takeWhile_append_of_pos hall]
      rcases hr with rfl | hr
      · simp
      · obtain ⟨r', rfl⟩ := List.head?_eq_some_iff.mp hr
        cases 12 - d.length with
        | zero => simp
        | succ n => simp [isSep]
    rcases hr with rfl | hr
    · have hnext : nextComp (d ++ []) = (d, []) := by
        rw [nextComp, hmax, hcomp, List.append_nil, List.drop_length]
      rw [hnext]
      exact Next.last hd hshort (List.append_nil d)
    · obtain ⟨r', rfl⟩ := List.head?_eq_some_iff.mp hr
      have hnext : nextComp (d ++ slash :: r') = (d, r') := by
        rw [nextComp, hmax, hcomp, List.drop_left]
        rfl
      rw [hnext]
      exact Next.comp hd hshort rfl

namespace Next

variable {p c r : List Byte}

theorem length_lt (h : Next p c r) : r.length < p.length := by
  cases h with
  | sep h => simp [h]
  | last hc _ h =>
    rw [h]
    exact List.length_pos_iff.mpr hc.1
  | comp _ _ h =>
    rw [h, List.length_append, List.length_cons]
    omega
  | cut _ hlen _ _ h =>
    have hp := congrArg List.length h
    rw [List.length_append, hlen] at hp
    omega

theorem subset (h : Next p c r) : c ⊆ p ∧ r ⊆ p := by
  cases h with
  | sep h => simp [h]
  | last _ _ h => simp [h]
  | comp _ _ h =>
    rw [h]
    exact ⟨List.subset_append_left _ _, fun b hb => by simp [hb]⟩
  | cut _ _ _ _ h =>
    rw [h]
    exact ⟨List.subset_append_left _ _, List.subset_append_right _ _⟩

theorem pieces_eq (h : Next p c r) : pieces p = if c = [] then pieces r else c :: pieces r := by
  cases h with
  | sep h => rw [h, if_pos rfl, pieces_slash_cons]
  | last hc hlen h =>
    rw [h, if_neg hc.1, pieces, comps_single hc, List.flatMap_singleton, cut_of_length_le hc.1 hlen]
    rfl
  | comp hc hlen h =>
    rw [h, if_neg hc.1, pieces, comps_append_slash, comps_single hc, List.singleton_append,
      List.flatMap_cons, cut_of_length_le hc.1 hlen]
    rfl
  | @cut c d r hc hlen hd hr h =>
    have hcd : IsComp (c ++ d) := ⟨by simp [hc.1], by simp [hc.2, hd.2]⟩
    rw [h, if_neg hc.1, pieces, ← List.append_assoc, comps_append hcd hr, List.flatMap_cons,
      cut_of_ne_nil hcd.1, List.take_append_of_le_length (by omega),
      List.take_of_length_le (by omega), ← hlen, List.drop_left, pieces, comps_append hd hr]
    rfl

/-- Where the loop goes on, the path ends as its rest does. -/
theorem trailing_iff (h : Next p c r) (hr : pieces r ≠ []) : Trailing p ↔ Trailing r := by
  have hr' : comps r ≠ [] := fun h0 => hr (pieces_eq_nil_iff.mpr h0)
  cases h with
  | sep h => rw [h, ← List.singleton_append, trailing_append hr']
  | last _ _ _ => exact absurd rfl hr
  | comp _ _ h => rw [h, ← List.singleton_append, ← List.append_assoc, trailing_append hr']
  | cut _ _ _ _ h => rw [h, trailing_append hr']

/-- Behind the last piece the driver asks for a directory when the path ends in two separators. -/
theorem trailing_last (h : Next p c r) (hc : c ≠ []) (hr : pieces r = []) :
    Trailing p ↔ r ≠ [] := by
  cases h with
  | sep h => exact absurd rfl hc
  | last hc' _ h => simp [h, (not_trailing_comp hc').1]
  | comp hc' _ h =>
    rw [h]
    constructor
    · rintro ht rfl
      exact (not_trailing_comp hc').2 ht
    · intro hne
      -- the rest ends in a separator, and one has been skipped
      have hrep := List.eq_replicate_of_mem (comps_eq_nil_iff.mp (pieces_eq_nil_iff.mp hr))
      obtain ⟨n, hn⟩ : ∃ n, r.length = n + 1 :=
        Nat.exists_eq_add_one.mpr (List.length_pos_iff.mpr hne)
      have htail : slash :: r = List.replicate n slash ++ [slash, slash] := by
        rw [hrep, hn, ← List.replicate_succ, List.replicate_add n 2]
        rfl
      rw [htail, ← List.append_assoc]
      exact List.suffix_append _ _
  | cut _ _ hd hr' h =>
    rw [pieces_eq_nil_iff, comps_append hd hr'] at hr
    cases hr

end Next

/-! ### What a path denotes -/

section Denotes

variable {s : Fat} {c dir : Nat} {n : List Byte} {ns : List (List Byte)} {e e' : Dirent}

/-- `e` is the record that the name `n` has in the directory at `c`, case ignored: the first one,
if there are several. -/
def Names (s : Fat) (c : Nat) (n : List Byte) (e : Dirent) : Prop :=
  ∃ l, s.DirClusters (s.dirHead c) l ∧
    ((s.dirEntries l).find? fun x => x.2.chars.map up == n.map up).map (fun x => s.dirent x.1) =
      some e

/-- `e` is the record that the components lead to from the directory at `c`. Every component names
a record of the directory that the ones before it lead to. -/
inductive Denotes (s : Fat) : Nat → List (List Byte) → Dirent → Prop
  | last {c : Nat} {n : List Byte} {e : Dirent} (h : s.Names c n e) : Denotes s c [n] e
  | step {c : Nat} {n n' : List Byte} {ns : List (List Byte)} {d e : Dirent} (h : s.Names c n d)
      (hdir : d.isDir = true) (hrest : Denotes s d.firstCluster (n' :: ns) e) :
      Denotes s c (n :: n' :: ns) e

/-- The directories of the volume. -/
inductive DirAt (s : Fat) : Nat → Prop
  | root : DirAt s s.gFat32.rootCluster
  | sub {c : Nat} {l : List Nat} {x : SlotPos × CStr} (h : DirAt s c)
      (hl : s.DirClusters (s.dirHead c) l) (hx : x ∈ s.dirEntries l)
      (hdir : (s.dirent x.1).isDir = true) : DirAt s (s.dirent x.1).firstCluster

/-- A mounted volume on which every directory ends. -/
structure Readable (s : Fat) : Prop where
  mounted : s.gFat32.mounted = true
  ends : ∀ c, s.DirAt c → ∃ l, s.DirClusters (s.dirHead c) l

theorem Names.unique (h : s.Names c n e) (h' : s.Names c n e') : e = e' := by
  obtain ⟨l, hl, he⟩ := h
  obtain ⟨l', hl', he'⟩ := h'
  rw [hl'.unique (fun x hx hx' => by rw [hx] at hx'; cases hx') hl, he] at he'
  exact Option.some.inj he'

theorem Denotes.unique (h : s.Denotes c ns e) (h' : s.Denotes c ns e') : e = e' := by
  induction h with
  | last h =>
    cases h' with
    | last h' => exact h.unique h'
  | step h _ _ ih =>
    cases h' with
    | step h' _ hrest' =>
      obtain rfl := h.unique h'
      exact ih hrest'

/-- A record that a name leads to is in the directory. -/
theorem Names.dirAt (h : s.Names c n e) (hc : s.DirAt c) (hdir : e.isDir = true) :
    s.DirAt e.firstCluster := by
  obtain ⟨l, hl, he⟩ := h
  obtain ⟨x, hx, rfl⟩ := Option.map_eq_some_iff.mp he
  exact DirAt.sub hc hl (List.mem_of_find?_eq_some hx) hdir

theorem denotes_cons_iff : s.Denotes c (n :: ns) e ↔
    ∃ d, s.Names c n d ∧ (ns = [] ∧ e = d ∨
      ns ≠ [] ∧ d.isDir = true ∧ s.Denotes d.firstCluster ns e) := by
  constructor
  · intro h
    cases h with
    | last h => exact ⟨e, h, .inl ⟨rfl, rfl⟩⟩
    | step h hdir hrest => exact ⟨_, h, .inr ⟨List.cons_ne_nil _ _, hdir, hrest⟩⟩
  · rintro ⟨d, h, ⟨rfl, rfl⟩ | ⟨hne, hdir, hrest⟩⟩
    · exact Denotes.last h
    · obtain ⟨n', ns', rfl⟩ := List.exists_cons_of_ne_nil hne
      exact Denotes.step h hdir hrest

/-- `find_in_dir` looks the name up. -/
theorem Readable.findInDir (h : s.Readable) (hc : s.DirAt c) (hn : ∀ b ∈ n, b ≠ 0) :
    ∃ r, s.findInDir c (CStr.ofBytes n) = some r ∧ ∀ e, (∃ p, r = some (e, p)) ↔ s.Names c n e := by
  obtain ⟨l, hl⟩ := h.ends c hc
  refine ⟨_, findInDir_eq hl _, fun e => ?_⟩
  have hci : (fun x : SlotPos × CStr => ciEq x.2 (CStr.ofBytes n)) =
      fun x => x.2.chars.map up == n.map up := by
    funext x
    rw [ciEq, CStr.ofBytes_chars hn]
  rw [hci]
  constructor
  · rintro ⟨p, hp⟩
    obtain ⟨x, hx, heq⟩ := Option.map_eq_some_iff.mp hp
    rw [Prod.mk.injEq] at heq
    exact ⟨l, hl, Option.map_eq_some_iff.mpr ⟨x, hx, heq.1⟩⟩
  · rintro ⟨l', hl', he⟩
    rw [hl'.unique (fun x hx hx' => by rw [hx] at hx'; cases hx') hl] at he
    obtain ⟨x, hx, rfl⟩ := Option.map_eq_some_iff.mp he
    exact ⟨x.1, by rw [hx]; rfl⟩

/-- The record that `fat32_stat` finds: what the pieces of the path denote, and it has to be a
directory when the path ends in two separators. -/
def Finds (s : Fat) (dir : Nat) (p : List Byte) (e : Dirent) : Prop :=
  s.Denotes dir (pieces p) e ∧ (Trailing p → e.isDir = true)

/-- Once it is settled what the first piece names. -/
theorem Next.finds_iff {r : List Byte} {d : Dirent} (h : Next p n r) (hn : n ≠ [])
    (hd : s.Names dir n d) : s.Finds dir p e ↔ (pieces r = [] ∧ e = d ∨
      pieces r ≠ [] ∧ d.isDir = true ∧ s.Denotes d.firstCluster (pieces r) e) ∧
      (Trailing p → e.isDir = true) := by
  rw [Finds, h.pieces_eq, if_neg hn, denotes_cons_iff]
  refine and_congr_left fun _ => ⟨?_, fun hd' => ⟨d, hd, hd'⟩⟩
  rintro ⟨d', hd', hrest⟩
  obtain rfl := hd.unique hd'
  exact hrest

theorem Readable.statLoop (h : s.Readable) (rounds : Nat) : ∀ {p : List Byte} {dir : Nat}
    (last : Option Dirent), p.length < rounds → s.DirAt dir → (0x3E : Byte) ∉ p → (∀ b ∈ p, b ≠ 0) →
    (pieces p = [] → s.statLoop rounds p dir last = some last) ∧
    (pieces p ≠ [] → ∃ r, s.statLoop rounds p dir last = some r ∧ ∀ e, r = some e ↔
      s.Finds dir p e) := by
  induction rounds with
  | zero => exact fun _ hlen => absurd hlen (Nat.not_lt_zero _)
  | succ rounds ih =>
    intro p dir last hlen hdir hsep hnz
    by_cases hp : p = []
    · rw [hp, Fat.statLoop, if_pos rfl]
      exact ⟨fun _ => rfl, fun hne => absurd (pieces_eq_nil_iff.mpr comps_nil) hne⟩
    have hnext := next_nextComp hp hsep
    rw [Fat.statLoop, if_neg hp]
    dsimp only
    generalize (nextComp p).1 = c at hnext ⊢
    generalize (nextComp p).2 = r at hnext ⊢
    have hlt := hnext.length_lt
    obtain ⟨hcp, hrp⟩ := hnext.subset
    have hpieces := hnext.pieces_eq
    have hrest := fun dir hdir last => @ih r dir last (by omega) hdir
      (fun hm => hsep (hrp hm)) fun b hb => hnz b (hrp hb)
    by_cases hc : c = []
    · -- a separator
      rw [if_pos hc] at hpieces ⊢
      rw [hpieces]
      refine ⟨(hrest dir hdir last).1, fun hne => ?_⟩
      obtain ⟨res, hres, hiff⟩ := (hrest dir hdir last).2 hne
      refine ⟨res, hres, fun e => ?_⟩
      rw [hiff, Finds, Finds, hpieces, hnext.trailing_iff hne]
    · rw [if_neg hc] at hpieces ⊢
      refine ⟨fun h0 => absurd (hpieces ▸ h0) (List.cons_ne_nil _ _), fun _ => ?_⟩
      obtain ⟨found, hfound, hnames⟩ := h.findInDir hdir fun b hb => hnz b (hcp hb)
      rw [hfound]
      cases found with
      | none =>
        refine ⟨none, rfl, fun e => ⟨nofun, fun hf => ?_⟩⟩
        obtain ⟨d, hd, -⟩ := denotes_cons_iff.mp (hpieces ▸ hf.1)
        obtain ⟨q, hq⟩ := (hnames d).mpr hd
        cases hq
      | some x =>
        obtain ⟨d, q⟩ := x
        have hd : s.Names dir c d := (hnames d).mp ⟨q, rfl⟩
        have hfinds := fun e => hnext.finds_iff hc hd (e := e)
        simp only [bind, Option.bind]
        by_cases hbad : r ≠ [] ∧ (!d.isDir) = true
        · -- something is left of the path behind a file
          have hno : d.isDir = false := by simpa using hbad.2
          rw [if_pos hbad]
          refine ⟨none, rfl, fun e => ⟨nofun, fun hf => ?_⟩⟩
          obtain ⟨⟨hr, rfl⟩ | ⟨-, hd', -⟩, htr⟩ := (hfinds e).mp hf
          · have := htr ((hnext.trailing_last hc hr).mpr hbad.1)
            rw [hno] at this
            cases this
          · rw [hno] at hd'
            cases hd'
        rw [if_neg hbad]
        have hisDir : r ≠ [] → d.isDir = true := fun hr => by
          by_contra hno
          exact hbad ⟨hr, by simpa using hno⟩
        have hdir' : s.DirAt (if r ≠ [] then d.firstCluster else dir) := by
          split
          · next hr => exact hd.dirAt hdir (hisDir hr)
          · exact hdir
        by_cases hr : pieces r = []
        · refine ⟨some d, (hrest _ hdir' (some d)).1 hr, fun e => ?_⟩
          rw [hfinds e, hnext.trailing_last hc hr]
          constructor
          · rintro ⟨⟩
            exact ⟨.inl ⟨hr, rfl⟩, hisDir⟩
          · rintro ⟨⟨-, rfl⟩ | ⟨hne, -⟩, -⟩
            · rfl
            · exact absurd hr hne
        · have hne : r ≠ [] := fun h0 => hr (by rw [h0]; exact pieces_eq_nil_iff.mpr comps_nil)
          rw [if_pos hne] at hdir' ⊢
          obtain ⟨res, hres, hiff⟩ := (hrest _ hdir' (some d)).2 hr
          refine ⟨res, hres, fun e => ?_⟩
          rw [hiff e, hfinds e, Finds, hnext.trailing_iff hr]
          refine and_congr_left fun _ => ⟨fun hden => .inr ⟨hr, hisDir hne, hden⟩, ?_⟩
          rintro (⟨h0, -⟩ | ⟨-, -, hden⟩)
          · exact absurd h0 hr
          · exact hden

/-- What `fat32_stat` returns for a record. -/
def statOf (e : Dirent) : FatDirent := ⟨nameFrom83 e.name, e.attr, e.firstCluster, e.fileSize⟩

/-- **`fat32_stat` on an absolute path.** -/
theorem Readable.fat32Stat (h : s.Readable) {path : CStr} (habs : path.chars.head? = some slash)
    (hsep : (0x3E : Byte) ∉ path.chars) :
    ∃ r : Option Dirent, s.fat32Stat path = some (r.map statOf) ∧
      ∀ e, r = some e ↔ s.Finds s.gFat32.rootCluster path.chars e := by
  obtain ⟨p, hp⟩ := List.head?_eq_some_iff.mp habs
  have hnz : ∀ b ∈ p, b ≠ 0 := fun b hb => path.nz b (by rw [hp]; exact List.mem_cons_of_mem _ hb)
  have hloop := h.statLoop (p.length + 1) (p := p) none (Nat.lt_succ_self _) DirAt.root
    (fun hm => hsep (by rw [hp]; exact List.mem_cons_of_mem _ hm)) hnz
  have hstat : s.fat32Stat path =
      (s.statLoop (p.length + 1) p s.gFat32.rootCluster none).map fun r => r.map statOf := by
    rw [Fat.fat32Stat, h.mounted, hp]
    rfl
  rw [hstat]
  by_cases h0 : pieces p = []
  · rw [hloop.1 h0]
    refine ⟨none, rfl, fun e => ⟨nofun, fun hf => ?_⟩⟩
    have hden := hf.1
    rw [hp, pieces_slash_cons, h0] at hden
    cases hden
  · obtain ⟨r, hr, hiff⟩ := hloop.2 h0
    rw [hr]
    refine ⟨r, rfl, fun e => ?_⟩
    have hne : comps p ≠ [] := fun hc => h0 (pieces_eq_nil_iff.mpr hc)
    rw [hiff e, hp, Finds, Finds, pieces_slash_cons, ← List.singleton_append, trailing_append hne]

/-! ### Names fit in the buffer -/

theorem length_nameFrom83 (raw : Buf 11) : (nameFrom83 raw).chars.length ≤ 12 := by
  refine Nat.le_trans (List.takeWhile_prefix _).length_le ?_
  have hbase : (((List.range 8).map raw.get).takeWhile (· ≠ blank)).length ≤ _ :=
    (List.takeWhile_prefix _).length_le
  have hext : (((List.range 3).map fun i => raw.get (8 + i)).takeWhile (· ≠ blank)).length ≤ _ :=
    (List.takeWhile_prefix _).length_le
  rw [List.length_map, List.length_range] at hbase hext
  rw [List.length_append]
  split
  · rw [List.length_cons]
    omega
  · rw [List.length_nil]
    omega

theorem length_take (lfn : LfnState) (e : Dirent) : (lfn.take e).chars.length ≤ 12 := by
  unfold LfnState.take
  split
  · refine Nat.le_trans (List.takeWhile_prefix _).length_le ?_
    rw [List.length_map, List.length_range]
  · exact length_nameFrom83 _

theorem length_entries {rec : SlotPos → Dirent} {lfn : LfnState} {ps : List SlotPos}
    {x : SlotPos × CStr} (h : x ∈ entries rec lfn ps) : x.2.chars.length ≤ 12 := by
  induction ps generalizing lfn with
  | nil => cases h
  | cons p ps ih =>
    rw [entries] at h
    split at h
    · cases h
    · split at h
      · rcases List.mem_cons.mp h with rfl | h
        · exact length_take _ _
        · exact ih h
      · exact ih h

theorem Names.length_le (h : s.Names c n e) : n.length ≤ 12 := by
  obtain ⟨l, -, he⟩ := h
  obtain ⟨x, hx, -⟩ := Option.map_eq_some_iff.mp he
  have hsame := List.find?_some hx
  have heq := congrArg List.length (eq_of_beq hsame)
  rw [List.length_map, List.length_map] at heq
  rw [← heq]
  exact length_entries (List.mem_of_find?_eq_some hx)

theorem Denotes.length_le (h : s.Denotes c ns e) : ∀ n ∈ ns, n.length ≤ 12 := by
  induction h with
  | last h => simpa using h.length_le
  | step h _ _ ih => exact List.forall_mem_cons.mpr ⟨h.length_le, ih⟩

/-! ### The whole path -/

/-- `fat32_stat` succeeds exactly when the components of the path denote a record, and then
returns the record's attributes, first cluster and size. -/
def StatAgrees (s : Fat) (path : CStr) : Prop :=
  (∃ e nm, s.Denotes s.gFat32.rootCluster (comps path.chars) e ∧
    s.fat32Stat path = some (some ⟨nm, e.attr, e.firstCluster, e.fileSize⟩)) ∨
  (¬ ∃ e, s.Denotes s.gFat32.rootCluster (comps path.chars) e) ∧ s.fat32Stat path = some none

/-- `fat32_stat` agrees with the path when every component fits in the buffer and the path does
not end in two separators behind a file, and when a component is too long but nothing lies at
the pieces that it is read as. -/
theorem statAgrees_iff (s : Fat) (h : s.Readable) {path : CStr}
    (habs : path.chars.head? = some slash) (hsep : (0x3E : Byte) ∉ path.chars) :
    s.StatAgrees path ↔
      (∀ n ∈ comps path.chars, n.length ≤ 12) ∧ (Trailing path.chars →
          ∀ e, s.Denotes s.gFat32.rootCluster (comps path.chars) e → e.isDir = true) ∨
        (∃ n ∈ comps path.chars, 12 < n.length) ∧
          ¬ ∃ e, s.Denotes s.gFat32.rootCluster (pieces path.chars) e ∧
            (Trailing path.chars → e.isDir = true) := by
  obtain ⟨r, hstat, hr⟩ := h.fat32Stat habs hsep
  have hnone : s.fat32Stat path = some none ↔ r = none := by
    rw [hstat, Option.some.injEq, Option.map_eq_none_iff]
  unfold StatAgrees
  by_cases hlong : ∃ n ∈ comps path.chars, 12 < n.length
  · -- no record has a name of that length
    have hno : ¬ ∃ e, s.Denotes s.gFat32.rootCluster (comps path.chars) e := by
      rintro ⟨e, he⟩
      obtain ⟨n, hn, hlen⟩ := hlong
      exact Nat.not_le_of_lt hlen (he.length_le n hn)
    have hnot : ¬ ∀ n ∈ comps path.chars, n.length ≤ 12 := fun hall => by
      obtain ⟨n, hn, hlen⟩ := hlong
      exact Nat.not_le_of_lt hlen (hall n hn)
    have hfinds : r = none ↔ ¬ ∃ e, s.Finds s.gFat32.rootCluster path.chars e := by
      rw [Option.eq_none_iff_forall_ne_some, not_exists]
      exact forall_congr' fun e => not_congr (hr e)
    constructor
    · rintro (⟨e, nm, he, -⟩ | ⟨-, hs⟩)
      · exact absurd ⟨e, he⟩ hno
      · exact .inr ⟨hlong, hfinds.mp (hnone.mp hs)⟩
    · rintro (⟨hall, -⟩ | ⟨-, hf⟩)
      · exact absurd hall hnot
      · exact .inr ⟨hno, hnone.mpr (hfinds.mpr hf)⟩
  · have hall : ∀ n ∈ comps path.chars, n.length ≤ 12 := fun n hn =>
      Nat.le_of_not_lt fun hlen => hlong ⟨n, hn, hlen⟩
    have hr' : ∀ e, r = some e ↔ s.Denotes s.gFat32.rootCluster (comps path.chars) e ∧
        (Trailing path.chars → e.isDir = true) := fun e => by
      rw [hr e, Finds, pieces_eq_comps hall]
    constructor
    · rintro (⟨e, nm, he, hs⟩ | ⟨hno, -⟩)
      · rw [hstat, Option.some.injEq, Option.map_eq_some_iff] at hs
        obtain ⟨e', he', -⟩ := hs
        refine .inl ⟨hall, fun htr e'' he'' => ?_⟩
        obtain ⟨hd, hdir⟩ := (hr' e').mp he'
        rw [he''.unique hd]
        exact hdir htr
      · exact .inl ⟨hall, fun _ e he => absurd ⟨e, he⟩ hno⟩
    · rintro (⟨-, htr⟩ | ⟨hl, -⟩)
      · by_cases hden : ∃ e, s.Denotes s.gFat32.rootCluster (comps path.chars) e
        · obtain ⟨e, he⟩ := hden
          have hre := (hr' e).mpr ⟨he, fun ht => htr ht e he⟩
          exact .inl ⟨e, _, he, by rw [hstat, hre]; rfl⟩
        · refine .inr ⟨hden, hnone.mpr ?_⟩
          rw [Option.eq_none_iff_forall_ne_some]
          exact fun e he => hden ⟨e, ((hr' e).mp he).1⟩
      · exact absurd hl hlong

end Denotes

/-! ### A long component -/

/-- A record with a short name. -/
def plainRecord (n11 : Buf 11) (attr : Byte) (firstCluster size : Nat) : Dirent :=
  (Dirent.setName Buf.zero n11).setFields attr firstCluster size

/-- A volume with the directory `ABCDEFGH.EXT`, which has the file `M`. -/
def splitVolume : Fat where
  disk := ⟨fun a =>
    if a = 33 then putDirent Buf.zero 0 (plainRecord
      (pad83 [0x41, 0x42, 0x43, 0x44, 0x45, 0x46, 0x47, 0x48] [0x45, 0x58, 0x54]) fat32AttrDir 3 0)
    else if a = 34 then putDirent Buf.zero 0 (plainRecord (pad83 [0x4D] []) fat32AttrArchive 4 5)
    else Buf.zero, []⟩
  gFat32 := ⟨512, 1, 32, 1, 1, 37, 2, 1, 0, 32, 33, 4, 2, true⟩

/-- `ABCDEFGH.EXT` -/
def dirName : List Byte := [0x41, 0x42, 0x43, 0x44, 0x45, 0x46, 0x47, 0x48, 0x2E, 0x45, 0x58, 0x54]

theorem dirClusters_splitVolume {c : Nat} (hc : c = 2 ∨ c = 3) :
    splitVolume.DirClusters (splitVolume.dirHead c) [c] := by
  have hmark : splitVolume.hasMark c = true ∧ splitVolume.dirHead c = c ∧ inChain c = true := by
    rcases hc with rfl | rfl <;> decide +kernel
  obtain ⟨hm, hhead, hin⟩ := hmark
  rw [hhead]
  refine Chain.cons_iff.mpr ⟨rfl, hin, Chain.nil_iff.mpr ?_⟩
  rw [dirNext, hm, if_pos rfl]
  rfl

theorem dirEntries_splitVolume :
    splitVolume.dirEntries [2] = [((33, 0), CStr.ofBytes dirName)] ∧
      splitVolume.dirEntries [3] = [((34, 0), CStr.ofBytes [0x4D])] := by
  decide +kernel

theorem dirent_splitVolume :
    ((splitVolume.dirent (33, 0)).isDir = true ∧ (splitVolume.dirent (33, 0)).firstCluster = 3) ∧
      (splitVolume.dirent (34, 0)).isDir = false := by
  decide +kernel

theorem readable_splitVolume : splitVolume.Readable := by
  refine ⟨rfl, fun c hc => ⟨[c], dirClusters_splitVolume ?_⟩⟩
  induction hc with
  | root => exact .inl rfl
  | @sub c l x _ hl hx hdir ih =>
    have hsep : ∀ x, inChain x = true → ¬ inChain x = false := by simp
    obtain rfl := hl.unique hsep (dirClusters_splitVolume ih)
    rcases ih with rfl | rfl
    · rw [dirEntries_splitVolume.1, List.mem_singleton] at hx
      rw [hx]
      exact .inr dirent_splitVolume.1.2
    · rw [dirEntries_splitVolume.2, List.mem_singleton] at hx
      rw [hx, dirent_splitVolume.2] at hdir
      cases hdir

theorem denotes_splitVolume :
    splitVolume.Denotes splitVolume.gFat32.rootCluster [dirName, [0x4D]]
      (splitVolume.dirent (34, 0)) := by
  have hroot : splitVolume.Names splitVolume.gFat32.rootCluster dirName
      (splitVolume.dirent (33, 0)) := by
    refine ⟨[2], dirClusters_splitVolume (.inl rfl), ?_⟩
    rw [dirEntries_splitVolume.1]
    rfl
  have hsub : splitVolume.Names 3 [0x4D] (splitVolume.dirent (34, 0)) := by
    refine ⟨[3], dirClusters_splitVolume (.inr rfl), ?_⟩
    rw [dirEntries_splitVolume.2]
    rfl
  refine .step hroot dirent_splitVolume.1.1 ?_
  rw [dirent_splitVolume.1.2]
  exact .last hsub

/-- `/ABCDEFGH.EXT/M` -/
def shortPath : CStr := CStr.ofBytes (slash :: dirName ++ slash :: [0x4D])

/-- `/ABCDEFGH.EXTM` -/
def longPath : CStr := CStr.ofBytes (slash :: dirName ++ [0x4D])

theorem statAgrees_iff_shortPath : splitVolume.StatAgrees shortPath :=
  (statAgrees_iff splitVolume readable_splitVolume
    (show shortPath.chars.head? = some slash from rfl) (by decide)).mpr
    (.inl ⟨by decide, fun h => absurd h (by decide)⟩)

/-- `/ABCDEFGH.EXTM` resolves through the directory `ABCDEFGH.EXT`, which is none of its
components. -/
theorem not_statAgrees_longPath : splitVolume.Readable ∧ longPath.chars.head? = some slash ∧
    (0x3E : Byte) ∉ longPath.chars ∧ comps longPath.chars = [dirName ++ [0x4D]] ∧
    splitVolume.fat32Stat longPath = some (some (statOf (splitVolume.dirent (34, 0)))) ∧
    ¬ splitVolume.StatAgrees longPath := by
  have hcomps : comps longPath.chars = [dirName ++ [0x4D]] := by decide
  have hpieces : pieces longPath.chars = [dirName, [0x4D]] := by
    rw [pieces, hcomps, List.flatMap_singleton, cut_of_ne_nil (by decide),
      cut_of_length_le (by decide) (by decide)]
    rfl
  obtain ⟨r, hstat, hr⟩ := readable_splitVolume.fat32Stat
    (show longPath.chars.head? = some slash from rfl) (by decide)
  rw [(hr _).mpr ⟨hpieces ▸ denotes_splitVolume, fun h => absurd h (by decide)⟩] at hstat
  refine ⟨readable_splitVolume, rfl, by decide, hcomps, hstat, ?_⟩
  rintro (⟨e, nm, he, -⟩ | ⟨-, hs⟩)
  · rw [hcomps] at he
    exact absurd (he.length_le _ List.mem_cons_self) (by decide)
  · rw [hstat] at hs
    cases hs

end Fat

end Crusadia
