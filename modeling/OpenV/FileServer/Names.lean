import OpenV.FileServer.Memory

/- Paths of the file server: how `normalize_path` and `parent_and_name` fit together. A
   normal path other than the root is the path of an entry of a directory, and an entry's
   path determines the directory and the name. -/
namespace OpenV.FileServer

open List

open OpenV.Vfs (parentAndName)

/-! ## Names and paths -/

/-- The path of an entry of a directory. -/
def childPath (dir name : String) : String := if dir = "/" then "/" ++ name else dir ++ "/" ++ name

/-- What can be an entry of a directory. -/
structure ValidName (name : String) : Prop where
  ne_empty : name ≠ ""
  noSlash : '/' ∉ name.toList

section
variable {dir dir' name name' : String}

/-- Where the last slash is. -/
theorem parentAndName_split {u w : List Char} (hw : '/' ∉ w) (hne : w ≠ []) :
    parentAndName (String.ofList (u ++ '/' :: w)) =
      some (if u = [] then "/" else String.ofList u, String.ofList w) := by
  have hrev : (u ++ '/' :: w).reverse = w.reverse ++ '/' :: u.reverse := by simp
  have hall : ∀ c ∈ w.reverse, c ≠ '/' := fun c hc h => hw (by rw [← h]; exact mem_reverse.mp hc)
  have htrim : (w.reverse ++ '/' :: u.reverse).dropWhile (· = '/') = w.reverse ++ '/' :: u.reverse := by
    cases hr : w.reverse with
    | nil => exact absurd (reverse_eq_nil_iff.mp hr) hne
    | cons c cs =>
      have hc : c ≠ '/' := hall c (by rw [hr]; exact .head _)
      simp [hc]
  have htake : (w.reverse ++ '/' :: u.reverse).takeWhile (· ≠ '/') = w.reverse := by
    rw [takeWhile_append_of_pos (by simpa using hall)]
    simp
  have hdrop : (w.reverse ++ '/' :: u.reverse).dropWhile (· ≠ '/') = '/' :: u.reverse := by
    rw [dropWhile_append_of_pos (by simpa using hall)]
    simp
  unfold parentAndName
  rw [String.toList_ofList, hrev, htrim]
  dsimp only
  rw [hdrop, htake, reverse_reverse]
  dsimp only
  rw [if_neg hne, reverse_reverse]
  by_cases hu : u = []
  · simp [hu]
  · simp [hu]

theorem parentAndName_noSlash {w : List Char} (hw : '/' ∉ w) : parentAndName (String.ofList w) = none := by
  have hall : ∀ c ∈ w.reverse, c ≠ '/' := fun c hc h => hw (by rw [← h]; exact mem_reverse.mp hc)
  have htrim : w.reverse.dropWhile (· = '/') = w.reverse := by
    cases hr : w.reverse with
    | nil => rfl
    | cons c cs =>
      have hc : c ≠ '/' := hall c (by rw [hr]; exact .head _)
      simp [hc]
  have hdrop : w.reverse.dropWhile (· ≠ '/') = [] := by
    rw [← append_nil w.reverse, dropWhile_append_of_pos (by simpa using hall)]
    rfl
  unfold parentAndName
  rw [String.toList_ofList, htrim]
  dsimp only
  rw [hdrop]

theorem childPath_toList (dir name : String) :
    (childPath dir name).toList = (if dir = "/" then [] else dir.toList) ++ '/' :: name.toList := by
  unfold childPath
  split_ifs
  · simp
  · simp

/-- A directory and a name are recovered from the path of the entry. -/
theorem parentAndName_childPath (hdir : dir ≠ "") (hn : ValidName name) :
    parentAndName (childPath dir name) = some (dir, name) := by
  have hname : name.toList ≠ [] := fun h => hn.ne_empty (String.toList_eq_nil_iff.mp h)
  have hpath : childPath dir name = String.ofList ((if dir = "/" then [] else dir.toList) ++ '/' :: name.toList) := by
    rw [← childPath_toList, String.ofList_toList]
  rw [hpath, parentAndName_split hn.noSlash hname, String.ofList_toList]
  by_cases hroot : dir = "/"
  · simp [hroot]
  · have hne : dir.toList ≠ [] := fun h => hdir (String.toList_eq_nil_iff.mp h)
    rw [if_neg hroot, if_neg hne, String.ofList_toList]

theorem childPath_inj (hdir : dir ≠ "") (hdir' : dir' ≠ "") (hn : ValidName name) (hn' : ValidName name')
    (h : childPath dir name = childPath dir' name') : dir = dir' ∧ name = name' := by
  have hp := parentAndName_childPath hdir hn
  rw [h, parentAndName_childPath hdir' hn'] at hp
  simp only [Option.some.injEq, Prod.mk.injEq] at hp
  exact ⟨hp.1.symm, hp.2.symm⟩

theorem childPath_ne_self (dir : String) (hn : ValidName name) : childPath dir name ≠ dir := by
  intro h
  have hl := congrArg (fun p => p.toList.length) h
  simp only [childPath_toList] at hl
  split_ifs at hl with hroot
  · rw [hroot] at hl
    have hname : name.toList = [] := by simpa using hl
    exact hn.ne_empty (String.toList_eq_nil_iff.mp hname)
  · simp at hl

end

/-! ## Normal paths -/

/-- A component that `normalize_path` keeps. -/
structure Component (comp : List Char) : Prop where
  ne_nil : comp ≠ []
  noSlash : '/' ∉ comp
  ne_dot : comp ≠ ['.']
  ne_dots : comp ≠ ['.', '.']

theorem noSlash_of_mem_splitOn {cs part : List Char} (h : part ∈ cs.splitOn '/') : '/' ∉ part := by
  induction cs generalizing part with
  | nil =>
    rw [splitOn_nil, mem_singleton] at h
    simp [h]
  | cons c cs ih =>
    rw [splitOn_cons_eq_if_modifyHead] at h
    split_ifs at h with hc
    · rcases mem_cons.mp h with rfl | h
      · simp
      · exact ih h
    · have hne : '/' ≠ c := fun e => hc (by rw [e]; exact beq_self_eq_true c)
      cases hs : cs.splitOn '/' with
      | nil => exact absurd hs (splitOn_ne_nil _ _)
      | cons first rest =>
        rw [hs, modifyHead_cons] at h
        rcases mem_cons.mp h with rfl | h
        · intro hm
          rcases mem_cons.mp hm with e | hm
          · exact hne e
          · exact ih (by rw [hs]; exact .head _) hm
        · exact ih (by rw [hs]; exact .tail _ h)

variable {comps : List (List Char)}

theorem component_keep {comp : List Char} (h : ∀ c ∈ comps, Component c) (hc : '/' ∉ comp) :
    ∀ c ∈ keepComponent comps comp, Component c := by
  intro c hm
  unfold keepComponent at hm
  split_ifs at hm with h1 h2
  · exact h c hm
  · exact h c (mem_of_mem_dropLast hm)
  · rcases mem_append.mp hm with hm | hm
    · exact h c hm
    · rw [mem_singleton.mp hm]
      exact ⟨fun e => h1 (.inl e), hc, fun e => h1 (.inr e), h2⟩

theorem component_normal (path : String) : ∀ c ∈ normalComponents path, Component c := by
  have hfold : ∀ (parts comps : List (List Char)), (∀ part ∈ parts, '/' ∉ part) → (∀ c ∈ comps, Component c) →
      ∀ c ∈ parts.foldl keepComponent comps, Component c := by
    intro parts
    induction parts with
    | nil => exact fun comps _ h => h
    | cons part parts ih =>
      intro comps hp h
      rw [foldl_cons]
      exact ih _ (fun q hq => hp q (.tail _ hq)) (component_keep h (hp part (.head _)))
  exact hfold _ [] (fun part hp => noSlash_of_mem_splitOn hp) (by simp)

theorem intercalate_concat (comps : List (List Char)) (last : List Char) :
    ['/'].intercalate (comps ++ [last]) = if comps = [] then last else ['/'].intercalate comps ++ '/' :: last := by
  induction comps with
  | nil => simp
  | cons c comps ih =>
    cases comps with
    | nil => simp [intercalate]
    | cons d comps =>
      rw [if_neg (by simp)] at ih ⊢
      rw [cons_append, cons_append, intercalate_cons_cons, ← cons_append, ih, intercalate_cons_cons]
      simp

theorem fold_components (h : ∀ c ∈ comps, Component c) (acc : List (List Char)) :
    comps.foldl keepComponent acc = acc ++ comps := by
  induction comps generalizing acc with
  | nil => simp
  | cons c comps ih =>
    have hc := h c (.head _)
    have hkeep : keepComponent acc c = acc ++ [c] := by
      unfold keepComponent
      rw [if_neg (not_or.mpr ⟨hc.ne_nil, hc.ne_dot⟩), if_neg hc.ne_dots]
    rw [foldl_cons, hkeep, ih fun d hd => h d (.tail _ hd), append_assoc]
    rfl

/-- A first component, and what follows it. -/
theorem intercalate_head (h : ∀ c ∈ comps, Component c) (hne : comps ≠ []) :
    ∃ c more, ['/'].intercalate comps = c :: more ∧ c ≠ '/' := by
  cases comps with
  | nil => exact absurd rfl hne
  | cons first rest =>
    have hfirst : Component first := h first (.head _)
    obtain ⟨c, cs, hc⟩ := exists_cons_of_ne_nil hfirst.ne_nil
    have hslash : c ≠ '/' := fun e => hfirst.noSlash (by rw [hc, e]; exact .head _)
    cases rest with
    | nil => exact ⟨c, cs, by simp [hc, intercalate], hslash⟩
    | cons d rest =>
      rw [intercalate_cons_cons, hc]
      exact ⟨c, _, rfl, hslash⟩

theorem normalizePath_toList (path : String) : (normalizePath path).toList =
    (if path.toList.head? = some '/' ∨ normalComponents path = [] then ['/'] else []) ++
      ['/'].intercalate (normalComponents path) := by
  unfold normalizePath
  rw [String.toList_ofList]

/-- A normal path has the same components. -/
theorem normalComponents_normalizePath (path : String) : normalComponents (normalizePath path) = normalComponents path := by
  have hcomp := component_normal path
  by_cases hnil : normalComponents path = []
  · have hroot : (normalizePath path).toList = ['/'] := by
      rw [normalizePath_toList, hnil]
      simp
    rw [hnil, normalComponents, hroot]
    decide
  · have hsplit : (['/'].intercalate (normalComponents path)).splitOn '/' = normalComponents path :=
      splitOn_intercalate '/' (fun c hc => (hcomp c hc).noSlash) hnil
    have hfold := fold_components hcomp []
    rw [normalComponents, normalizePath_toList]
    split_ifs
    · rw [singleton_append, splitOn_cons_eq_if_modifyHead, if_pos (by decide), hsplit, foldl_cons]
      exact hfold
    · rw [nil_append, hsplit]
      exact hfold

/-- `normalize_path` of a normal path. -/
theorem normalizePath_idem (path : String) : normalizePath (normalizePath path) = normalizePath path := by
  refine String.toList_inj.mp ?_
  rw [normalizePath_toList (normalizePath path), normalComponents_normalizePath, normalizePath_toList path]
  congr 1
  by_cases hnil : normalComponents path = []
  · rw [if_pos (.inr hnil), if_pos (.inr hnil)]
  · obtain ⟨c, more, hc, hslash⟩ := intercalate_head (component_normal path) hnil
    by_cases habs : path.toList.head? = some '/' ∨ normalComponents path = []
    · rw [if_pos habs, if_pos (.inl rfl)]
    · rw [if_neg habs, hc, if_neg]
      rintro (h | h)
      · exact hslash (Option.some.inj h)
      · exact hnil h

/-- What `parent_and_name` finds in a normal path is the entry that the path is of. -/
theorem normal_childPath {path dir name : String} (h : parentAndName (normalizePath path) = some (dir, name)) :
    normalizePath path = childPath dir name ∧ ValidName name ∧ dir ≠ "" := by
  have hcomp := component_normal path
  rcases eq_nil_or_concat (normalComponents path) with hnil | ⟨init, last, hconcat⟩
  · have hroot : normalizePath path = "/" := by
      unfold normalizePath
      rw [hnil]
      simp
    have hnone : parentAndName "/" = none := by decide +kernel
    rw [hroot, hnone] at h
    cases h
  rw [concat_eq_append] at hconcat
  rw [hconcat] at hcomp
  have hlast : Component last := hcomp last (by simp)
  have hvalid : ValidName (String.ofList last) :=
    ⟨fun e => hlast.ne_nil (by simpa using congrArg String.toList e), by rw [String.toList_ofList]; exact hlast.noSlash⟩
  -- the path up to the last slash, if there is one
  have hform : normalizePath path = String.ofList last ∨ ∃ u, u ≠ ['/'] ∧
      normalizePath path = String.ofList (u ++ '/' :: last) := by
    unfold normalizePath
    dsimp only
    rw [hconcat, intercalate_concat]
    cases init with
    | nil =>
      rw [if_pos (rfl : ([] : List (List Char)) = [])]
      by_cases hp : path.toList.head? = some '/' ∨ [] ++ [last] = []
      · rw [if_pos hp]
        exact .inr ⟨[], by simp, rfl⟩
      · rw [if_neg hp]
        exact .inl rfl
    | cons first rest =>
      obtain ⟨c, more, hmore, hslash⟩ := intercalate_head (fun d hd => hcomp d (mem_append_left _ hd))
        (cons_ne_nil first rest)
      rw [if_neg (cons_ne_nil first rest), hmore]
      refine .inr ⟨_, fun e => ?_, congrArg String.ofList (append_assoc ..).symm⟩
      split_ifs at e
      · simp at e
      · simp [hslash] at e
  rcases hform with he | ⟨u, hu, he⟩
  · rw [he, parentAndName_noSlash hlast.noSlash] at h
    cases h
  rw [he, parentAndName_split hlast.noSlash hlast.ne_nil] at h
  simp only [Option.some.injEq, Prod.mk.injEq] at h
  obtain ⟨hdir, hname⟩ := h
  rw [← hname, ← hdir, he]
  refine ⟨String.toList_inj.mp ?_, hvalid, ?_⟩
  · rw [childPath_toList]
    by_cases hnil : u = []
    · simp [hnil]
    · have hne : String.ofList u ≠ "/" := fun e => hu (by simpa using congrArg String.toList e)
      rw [if_neg hnil, if_neg hne]
      simp
  · split_ifs with hnil
    · decide
    · exact fun e => hnil (by simpa using congrArg String.toList e)

/-! ## Paths on a stack -/

/-- The components of a path are evaluated one after the other, with the directories passed so far on a stack; `..`
takes the last one off, if there is one. -/
def evalPath : List (List Char) → List (List Char) → List (List Char)
  | stack, [] => stack.reverse
  | stack, comp :: comps =>
    if comp = [] ∨ comp = ['.'] then evalPath stack comps
    else if comp = ['.', '.'] then evalPath stack.tail comps
    else evalPath (comp :: stack) comps

theorem evalPath_eq (stack comps : List (List Char)) :
    evalPath stack comps = comps.foldl keepComponent stack.reverse := by
  induction comps generalizing stack with
  | nil => rfl
  | cons comp comps ih =>
    rw [foldl_cons, keepComponent, evalPath]
    split_ifs
    · exact ih stack
    · rw [ih, dropLast_reverse]
    · rw [ih, reverse_cons]

/-- What follows a slash is evaluated from where the path before it ends. -/
theorem normalComponents_append (p q : String) :
    normalComponents (p ++ "/" ++ q) = (q.toList.splitOn '/').foldl keepComponent (normalComponents p) := by
  have hsplit : (p ++ "/" ++ q).toList.splitOn '/' = p.toList.splitOn '/' ++ q.toList.splitOn '/' := by
    simp [splitOn_append_cons_self]
  rw [normalComponents, hsplit, foldl_append]
  rfl

/-- `normalize_path` of an absolute path is a slash and what its evaluation leaves, which has no empty component, no dot
and no dot-dot; it may be applied to a part of a path first, and a second time to anything. -/
theorem normalizePath_laws (p q : String) (hp : p.toList.head? = some '/') (s : String) :
    (normalizePath p).toList = '/' :: ['/'].intercalate (evalPath [] (p.toList.splitOn '/')) ∧
    (∀ c ∈ evalPath [] (p.toList.splitOn '/'), c ≠ [] ∧ c ≠ ['.'] ∧ c ≠ ['.', '.'] ∧ '/' ∉ c) ∧
    normalizePath (p ++ "/" ++ q) = normalizePath (normalizePath p ++ "/" ++ q) ∧
    normalizePath (normalizePath s) = normalizePath s := by
  have heval : evalPath [] (p.toList.splitOn '/') = normalComponents p := evalPath_eq [] _
  have hnormal : (normalizePath p).toList = '/' :: ['/'].intercalate (normalComponents p) := by
    rw [normalizePath_toList, if_pos (.inl hp)]
    rfl
  rw [heval]
  refine ⟨hnormal, fun c hc => ?_, String.toList_inj.mp ?_, normalizePath_idem s⟩
  · obtain ⟨h1, h2, h3, h4⟩ := component_normal p c hc
    exact ⟨h1, h3, h4, h2⟩
  · have hcomps : normalComponents (p ++ "/" ++ q) = normalComponents (normalizePath p ++ "/" ++ q) := by
      rw [normalComponents_append, normalComponents_append, normalComponents_normalizePath]
    have hhead : ∀ r : String, r.toList.head? = some '/' → (r ++ "/" ++ q).toList.head? = some '/' := by
      intro r hr
      rw [String.toList_append, String.toList_append, append_assoc, head?_append, hr]
      rfl
    have hslash : (normalizePath p).toList.head? = some '/' := by
      rw [hnormal]
      rfl
    rw [normalizePath_toList, normalizePath_toList, hcomps, if_pos (.inl (hhead p hp)), if_pos (.inl (hhead _ hslash))]

/-- A path that climbs above the root. -/
theorem normalizePath_laws_climb :
    normalizePath ("/a/./../.." ++ "/" ++ "b//c/") = normalizePath (normalizePath "/a/./../.." ++ "/" ++ "b//c/") :=
  (normalizePath_laws "/a/./../.." "b//c/" (by decide) "").2.2.1

end OpenV.FileServer
