import Caf.Spec.PathLookup
import Mathlib.Algebra.BigOperators.Group.List.Basic
import Mathlib.Data.List.TakeWhile

/-!
# Looking for afl-fuzz

The condition of the loop over PATH drops a character in front of each directory. The dropped character is a colon only
behind an empty component.

* `lookupLoop_reads`: what the loop does with the rest of PATH.
* `reads_padded`, `padded_of_weight`: which directories it reads.
* `followsPath_iff`: when it looks in all directories of PATH, whatever files there are.
* `followsPath_of_padded`, `followsPath_iff_padded`: the same for given files, where the directories up to the first hit
  count.
-/

namespace Caf.Lookup

variable {ch : UInt8} {d r s t front back : StdString} {ds : List StdString} {files tested : List StdString}

/-! ## Memory -/

theorem bind_run {α β : Type} {x : LookupM α} {f : α → LookupM β} {a : α} {σ σ' : Lookup} (h : x σ = .ok (a, σ')) :
    (x >>= f) σ = f a σ' := by
  show Except.bind (x σ) (fun r => f r.1 r.2) = _
  rw [h]
  rfl

theorem findChar_append {accept : UInt8} (hnul : 0 ∉ d) (haccept : accept ∉ d) (p : ℕ) (t : StdString) :
    findChar accept p (d ++ t) = findChar accept (p + d.length) t := by
  induction d generalizing p with
  | nil => rfl
  | cons ch d ih =>
    rw [List.mem_cons, not_or] at hnul haccept
    rw [List.cons_append, findChar, if_neg (Ne.symm hnul.1), if_neg (Ne.symm haccept.1), ih hnul.2 haccept.2,
      List.length_cons]
    congr 1
    omega

theorem untilNul_append (hnul : 0 ∉ d) (t : StdString) : untilNul (d ++ 0 :: t) = .ok d := by
  induction d with
  | nil => rfl
  | cons ch d ih =>
    rw [List.mem_cons, not_or] at hnul
    rw [List.cons_append, untilNul, if_neg (Ne.symm hnul.1), ih hnul.2]
    rfl

theorem get_run (σ : Lookup) : (get : LookupM Lookup) σ = .ok (σ, σ) := rfl

theorem readChar_append :
    readChar front.length ⟨front ++ ch :: back, tested⟩ = .ok (ch, ⟨front ++ ch :: back, tested⟩) := by
  have hget : (front ++ ch :: back)[front.length]? = some ch := by simp
  unfold readChar
  rw [bind_run (get_run _), hget]
  rfl

theorem writeChar_append {new : UInt8} :
    writeChar front.length new ⟨front ++ ch :: back, tested⟩ = .ok ((), ⟨front ++ new :: back, tested⟩) := by
  have hlt : front.length < (front ++ ch :: back).length := by simp
  have hset : (front ++ ch :: back).set front.length new = front ++ new :: back := by simp
  unfold writeChar
  rw [bind_run (get_run _), if_pos hlt, hset]
  rfl

theorem copyString_append (hnul : 0 ∉ d) :
    copyString front.length ⟨front ++ (d ++ 0 :: back), tested⟩ = .ok (d, ⟨front ++ (d ++ 0 :: back), tested⟩) := by
  have hdrop : (front ++ (d ++ 0 :: back)).drop front.length = d ++ 0 :: back := List.drop_left
  unfold copyString
  rw [bind_run (get_run _), hdrop, untilNul_append hnul]
  rfl

/-- `strpbrk` finds the first colon. -/
theorem strpbrk_some (hnul : 0 ∉ d) (hcolon : 58 ∉ d) : strpbrk front.length 58 ⟨front ++ (d ++ 58 :: back), tested⟩ =
    .ok (some (front.length + d.length), ⟨front ++ (d ++ 58 :: back), tested⟩) := by
  have hdrop : (front ++ (d ++ 58 :: back)).drop front.length = d ++ 58 :: back := List.drop_left
  have hfind : findChar 58 front.length (d ++ 58 :: back) = .ok (some (front.length + d.length)) := by
    rw [findChar_append hnul hcolon]
    rfl
  unfold strpbrk
  rw [bind_run (get_run _), hdrop, hfind]
  rfl

theorem strpbrk_none (hnul : 0 ∉ d) (hcolon : 58 ∉ d) : strpbrk front.length 58 ⟨front ++ (d ++ [0]), tested⟩ =
    .ok (none, ⟨front ++ (d ++ [0]), tested⟩) := by
  have hdrop : (front ++ (d ++ [0])).drop front.length = d ++ [0] := List.drop_left
  have hfind : findChar 58 front.length (d ++ [0]) = .ok none := by
    rw [findChar_append hnul hcolon]
    rfl
  unfold strpbrk
  rw [bind_run (get_run _), hdrop, hfind]
  rfl

/-! ## One directory -/

/-- The directory is copied, and the colon behind it is put back. -/
theorem copyDir_some (hnul : 0 ∉ d) :
    copyDir front.length (some (front.length + d.length)) ⟨front ++ (d ++ 58 :: back), tested⟩ =
      .ok (d, ⟨front ++ (d ++ 58 :: back), tested⟩) := by
  have hlen : front.length + d.length = (front ++ d).length := List.length_append.symm
  have hwrite : ∀ ch new : UInt8, writeChar (front ++ d).length new ⟨front ++ (d ++ ch :: back), tested⟩ =
      .ok ((), ⟨front ++ (d ++ new :: back), tested⟩) := by
    intro ch new
    rw [← List.append_assoc, writeChar_append, List.append_assoc]
  -- the NUL ends the copy
  rw [hlen, copyDir, bind_run (hwrite 58 0), bind_run (copyString_append hnul), bind_run (hwrite 0 58)]
  rfl

theorem fileIn_ne_nil (d : StdString) : fileIn d ≠ [] := by
  intro h
  have htext := (List.append_eq_nil_iff.1 h).2
  cases htext

theorem nul_not_mem_fileIn (hnul : 0 ∉ d) : 0 ∉ fileIn d := by
  have hname : (0 : UInt8) ∉ aflExecutableName := by decide
  unfold fileIn
  split
  · simp [hnul, hname]
  · simp [hnul, hname]

/-- A file is tested, and returned if it is executable. -/
theorem lookupInDir_eq (executable : StdString → Bool) (hnul : 0 ∉ d) (b : StdString) (tested : List StdString) :
    lookupInDir executable d ⟨b, tested⟩ =
      .ok (if executable (fileIn d) then fileIn d else [], ⟨b, tested ++ [fileIn d]⟩) := by
  have hc : cStr (fileIn d) = fileIn d := by
    refine List.takeWhile_eq_self_iff.2 ?_
    intro ch hch
    simp only [bne_iff_ne, ne_eq]
    rintro rfl
    exact nul_not_mem_fileIn hnul hch
  have htest : isValidExecutable executable (cStr (fileIn d)) ⟨b, tested⟩ =
      .ok (executable (fileIn d), ⟨b, tested ++ [fileIn d]⟩) := by
    rw [hc]
    rfl
  have hrun := bind_run (f := fun valid => if valid = true then return fileIn d else return []) htest
  refine hrun.trans ?_
  by_cases hexec : executable (fileIn d) = true
  · rw [if_pos hexec, if_pos hexec]
    rfl
  · rw [if_neg hexec, if_neg hexec]
    rfl

/-! ## The loop -/

/-- Which directories the loop reads from the rest of PATH. -/
inductive Reads : StdString → List StdString → Prop
  | stop : Reads [] []
  | skip (ch : UInt8) {r : StdString} {ds : List StdString} (h : Reads (58 :: r) ds) : Reads (ch :: 58 :: r) ds
  | last (ch : UInt8) {r : StdString} (hcolon : 58 ∉ r) : Reads (ch :: r) [r]
  | dir (ch : UInt8) {d t : StdString} {ds : List StdString} (hd : d ≠ []) (hcolon : 58 ∉ d) (h : Reads t ds) :
    Reads (ch :: (d ++ 58 :: t)) (d :: ds)

/-- Each PATH is read in some way. -/
theorem exists_reads (s : StdString) : ∃ ds, Reads s ds := by
  induction hn : s.length using Nat.strongRecOn generalizing s with
  | _ n ih =>
  rcases s with - | ⟨ch, r⟩
  · exact ⟨[], .stop⟩
  by_cases hmem : 58 ∈ r
  · obtain ⟨d, t, rfl, hd⟩ := List.eq_append_cons_of_mem hmem
    simp only [List.length_cons, List.length_append] at hn
    rcases d with - | ⟨x, d⟩
    · obtain ⟨ds, hds⟩ := ih (t.length + 1) (by omega) (58 :: t) rfl
      exact ⟨ds, .skip ch hds⟩
    · obtain ⟨ds, hds⟩ := ih t.length (by omega) t rfl
      exact ⟨(x :: d) :: ds, .dir ch (List.cons_ne_nil x d) hd hds⟩
  · exact ⟨[r], .last ch hmem⟩

/-- A colon directly behind the dropped character. -/
theorem lookupTurn_skip (executable : StdString → Bool) (front back : StdString) (tested : List StdString) :
    lookupTurn executable front.length ⟨front ++ 58 :: back, tested⟩ =
      .ok (.inr front.length, ⟨front ++ 58 :: back, tested⟩) := by
  have hfind : strpbrk front.length 58 ⟨front ++ 58 :: back, tested⟩ =
      .ok (some front.length, ⟨front ++ 58 :: back, tested⟩) :=
    strpbrk_some (d := []) List.not_mem_nil List.not_mem_nil
  unfold lookupTurn
  rw [bind_run hfind, if_pos rfl]
  rfl

/-- The last directory. -/
theorem lookupTurn_last (executable : StdString → Bool) (hnul : 0 ∉ d) (hcolon : 58 ∉ d) (front : StdString)
    (tested : List StdString) :
    lookupTurn executable front.length ⟨front ++ (d ++ [0]), tested⟩ =
      .ok (.inl (if executable (fileIn d) then fileIn d else []), ⟨front ++ (d ++ [0]), tested ++ [fileIn d]⟩) := by
  have hcopy : copyDir front.length none ⟨front ++ (d ++ [0]), tested⟩ = .ok (d, ⟨front ++ (d ++ [0]), tested⟩) :=
    copyString_append hnul
  have hne := fileIn_ne_nil d
  unfold lookupTurn
  rw [bind_run (strpbrk_none hnul hcolon), if_neg (by simp), bind_run hcopy,
    bind_run (lookupInDir_eq executable hnul _ _)]
  by_cases hexec : executable (fileIn d) = true
  · rw [if_pos hexec, if_pos hne]
    rfl
  · rw [if_neg hexec, if_neg (not_not.2 rfl)]
    rfl

/-- A directory that ends at a colon. -/
theorem lookupTurn_dir (executable : StdString → Bool) (hd : d ≠ []) (hnul : 0 ∉ d) (hcolon : 58 ∉ d)
    (front back : StdString) (tested : List StdString) :
    lookupTurn executable front.length ⟨front ++ (d ++ 58 :: back), tested⟩ =
      .ok (if executable (fileIn d) then .inl (fileIn d) else .inr (front.length + d.length + 1),
        ⟨front ++ (d ++ 58 :: back), tested ++ [fileIn d]⟩) := by
  have hpos := List.length_pos_iff.2 hd
  have hend : some (front.length + d.length) ≠ some front.length := by
    intro h
    have heq := Option.some.inj h
    omega
  have hne := fileIn_ne_nil d
  unfold lookupTurn
  rw [bind_run (strpbrk_some hnul hcolon), if_neg hend, bind_run (copyDir_some hnul),
    bind_run (lookupInDir_eq executable hnul _ _)]
  by_cases hexec : executable (fileIn d) = true
  · rw [if_pos hexec, if_pos hexec, if_pos hne]
    rfl
  · rw [if_neg hexec, if_neg hexec, if_neg (not_not.2 rfl)]
    rfl

/-- A turn in which the loop is left. -/
theorem lookupLoop_inl {executable : StdString → Bool} {path : StdString} {σ : Lookup} (hch : ch ≠ 0)
    (h : lookupTurn executable (front ++ [ch]).length ⟨front ++ ch :: back, tested⟩ = .ok (.inl path, σ)) (fuel : ℕ) :
    lookupLoop executable (fuel + 1) front.length ⟨front ++ ch :: back, tested⟩ = .ok (path, σ) := by
  rw [List.length_append, List.length_singleton] at h
  rw [lookupLoop, bind_run readChar_append, if_neg hch, bind_run h]
  rfl

/-- A turn after which the loop goes on. -/
theorem lookupLoop_inr {executable : StdString → Bool} {next : ℕ} {σ : Lookup} (hch : ch ≠ 0)
    (h : lookupTurn executable (front ++ [ch]).length ⟨front ++ ch :: back, tested⟩ = .ok (.inr next, σ)) (fuel : ℕ) :
    lookupLoop executable (fuel + 1) front.length ⟨front ++ ch :: back, tested⟩ =
      lookupLoop executable fuel next σ := by
  rw [List.length_append, List.length_singleton] at h
  rw [lookupLoop, bind_run readChar_append, if_neg hch, bind_run h]

/-- **What the loop does**: it tests the files in the directories that it reads, up to the first executable one. -/
theorem lookupLoop_reads (executable : StdString → Bool) (h : Reads s ds) (hnul : 0 ∉ s) {fuel : ℕ}
    (hfuel : s.length < fuel) (front : StdString) (tested : List StdString) :
    lookupLoop executable fuel front.length ⟨front ++ (s ++ [0]), tested⟩ =
      .ok (((ds.map fileIn).find? executable).getD [],
        ⟨front ++ (s ++ [0]), tested ++ upToFirst executable (ds.map fileIn)⟩) := by
  -- `front` is the part of PATH that has been read
  induction h generalizing fuel front tested with
  | stop =>
    obtain ⟨fuel, rfl⟩ : ∃ n, fuel = n + 1 := ⟨fuel - 1, by omega⟩
    rw [List.nil_append, lookupLoop, bind_run readChar_append, if_pos rfl, List.map_nil, upToFirst, List.append_nil]
    rfl
  | @skip ch r ds h ih =>
    obtain ⟨fuel, rfl⟩ : ∃ n, fuel = n + 1 := ⟨fuel - 1, by omega⟩
    rw [List.mem_cons, not_or] at hnul
    rw [List.length_cons] at hfuel
    have hbuffer : front ++ ch :: (58 :: r ++ [0]) = (front ++ [ch]) ++ (58 :: r ++ [0]) := by simp
    have hturn := lookupTurn_skip executable (front ++ [ch]) (r ++ [0]) tested
    rw [← List.cons_append, ← hbuffer] at hturn
    rw [List.cons_append, lookupLoop_inr (Ne.symm hnul.1) hturn fuel, hbuffer]
    exact ih hnul.2 (by omega) (front ++ [ch]) tested
  | @last ch r hcolon =>
    obtain ⟨fuel, rfl⟩ : ∃ n, fuel = n + 1 := ⟨fuel - 1, by omega⟩
    rw [List.mem_cons, not_or] at hnul
    have hbuffer : front ++ ch :: (r ++ [0]) = (front ++ [ch]) ++ (r ++ [0]) := by simp
    have hturn := lookupTurn_last executable hnul.2 hcolon (front ++ [ch]) tested
    rw [← hbuffer] at hturn
    rw [List.cons_append, lookupLoop_inl (Ne.symm hnul.1) hturn fuel]
    by_cases hexec : executable (fileIn r) = true <;> simp [upToFirst, hexec]
  | @dir ch d t ds hd hcolon h ih =>
    obtain ⟨fuel, rfl⟩ : ∃ n, fuel = n + 1 := ⟨fuel - 1, by omega⟩
    simp only [List.mem_cons, List.mem_append, not_or] at hnul
    obtain ⟨hch, hnuld, -, hnult⟩ := hnul
    simp only [List.length_cons, List.length_append] at hfuel
    have hbuffer : front ++ ch :: (d ++ 58 :: t ++ [0]) = (front ++ [ch]) ++ (d ++ 58 :: (t ++ [0])) := by simp
    have hrest : front ++ ch :: (d ++ 58 :: t ++ [0]) = (front ++ ch :: (d ++ [58])) ++ (t ++ [0]) := by simp
    have hnext : (front ++ [ch]).length + d.length + 1 = (front ++ ch :: (d ++ [58])).length := by
      simp only [List.length_append, List.length_cons, List.length_nil]
      omega
    have hturn := lookupTurn_dir executable hd hnuld hcolon (front ++ [ch]) (t ++ [0]) tested
    rw [← hbuffer] at hturn
    by_cases hexec : executable (fileIn d) = true
    · rw [if_pos hexec] at hturn
      rw [List.cons_append, lookupLoop_inl (Ne.symm hch) hturn fuel]
      simp [upToFirst, hexec]
    · -- `pathVar` goes on behind the colon
      rw [if_neg hexec, hnext] at hturn
      rw [List.cons_append, lookupLoop_inr (Ne.symm hch) hturn fuel, hrest,
        ih hnult (by omega) _ (tested ++ [fileIn d])]
      simp [upToFirst, hexec]

/-- **What a lookup does.** -/
theorem lookup_eq {executable : StdString → Bool} (hname : executable aflExecutableName = false) {path : CString}
    (h : Reads path.chars ds) {fuel : ℕ} (hfuel : path.chars.length < fuel) : lookup executable fuel path =
      .ok (((ds.map fileIn).find? executable).getD [],
        ⟨path.chars ++ [0], aflExecutableName :: upToFirst executable (ds.map fileIn)⟩) := by
  have htest : isValidExecutable executable aflExecutableName ⟨path.chars ++ [0], []⟩ =
      .ok (false, ⟨path.chars ++ [0], [aflExecutableName]⟩) := by
    rw [← hname]
    rfl
  unfold lookup lookupAflExecutable
  rw [bind_run htest, if_neg (by simp)]
  exact lookupLoop_reads executable h path.noNul hfuel [] [aflExecutableName]

/-! ## Directories and components -/

theorem padded_nil : Padded [[]] := ⟨rfl, List.IsChain.singleton _, by decide⟩

theorem not_padded_cons {c : StdString} {cs : List StdString} : ¬ Padded ((ch :: c) :: cs) := by
  intro h
  cases h.first

theorem padded_pair (hd : d ≠ []) : Padded [[], d] := by
  refine ⟨rfl, by simp, ?_⟩
  rintro ⟨front, hfront⟩
  have hlast := congrArg List.getLast? hfront
  rw [List.getLast?_append_of_ne_nil _ (List.cons_ne_nil _ _)] at hlast
  exact hd (Option.some.inj hlast).symm

/-- An empty component before an empty one. -/
theorem padded_skip {cs : List StdString} (hcs : cs ≠ []) : Padded ([] :: [] :: cs) ↔ Padded ([] :: cs) := by
  have hlast : [[], []] <:+ ([] :: [] :: cs : List StdString) ↔ [[], []] <:+ ([] :: cs : List StdString) := by
    rw [List.suffix_cons_iff]
    simp [Ne.symm hcs]
  constructor
  · rintro ⟨-, hfollows, hnot⟩
    exact ⟨rfl, (List.isChain_cons_cons.1 hfollows).2, mt hlast.2 hnot⟩
  · rintro ⟨-, hfollows, hnot⟩
    exact ⟨rfl, List.isChain_cons_cons.2 ⟨fun h => absurd rfl h, hfollows⟩, mt hlast.1 hnot⟩

/-- A directory behind an empty component. -/
theorem padded_dir {cs : List StdString} (hd : d ≠ []) (hcs : cs ≠ []) : Padded ([] :: d :: cs) ↔ Padded cs := by
  obtain ⟨e, cs, rfl⟩ := List.exists_cons_of_ne_nil hcs
  have hlast : [[], []] <:+ [] :: d :: e :: cs ↔ [[], []] <:+ e :: cs := by
    rw [List.suffix_cons_iff, List.suffix_cons_iff]
    simp [Ne.symm hd]
  constructor
  · rintro ⟨-, hfollows, hnot⟩
    obtain ⟨hde, hfollows⟩ := List.isChain_cons_cons.1 (List.isChain_cons_cons.1 hfollows).2
    have he : e = [] := by
      by_contra he
      exact hd (hde he)
    exact ⟨congrArg some he, hfollows, mt hlast.2 hnot⟩
  · rintro ⟨hfirst, hfollows, hnot⟩
    have he : e = [] := Option.some.inj hfirst
    have hchain : (d :: e :: cs).IsChain fun c d => d ≠ [] → c = [] :=
      List.isChain_cons_cons.2 ⟨fun h => absurd he h, hfollows⟩
    exact ⟨rfl, List.isChain_cons_cons.2 ⟨fun _ => rfl, hchain⟩, mt hlast.1 hnot⟩

theorem splitOn_colon (t : StdString) : (58 :: t).splitOn 58 = [] :: t.splitOn 58 :=
  List.splitOn_append_cons_self_of_not_mem List.not_mem_nil t

theorem splitOn_dir (hcolon : 58 ∉ d) (t : StdString) : (d ++ 58 :: t).splitOn 58 = d :: t.splitOn 58 :=
  List.splitOn_append_cons_self_of_not_mem hcolon t

theorem not_mem_cons (hch : ch ≠ 58) (hcolon : 58 ∉ d) : 58 ∉ ch :: d := by
  rw [List.mem_cons, not_or]
  exact ⟨Ne.symm hch, hcolon⟩

theorem splitOn_char (hch : ch ≠ 58) (t : StdString) : (ch :: 58 :: t).splitOn 58 = [ch] :: t.splitOn 58 :=
  splitOn_dir (not_mem_cons hch List.not_mem_nil) t

/-- **What is read when the components are padded**: all directories. -/
theorem reads_padded (h : Reads s ds) (hpadded : Padded (s.splitOn 58)) : ds = (s.splitOn 58).filter (· ≠ []) := by
  induction h with
  | stop => rfl
  | @skip ch r ds h ih =>
    by_cases hch : ch = 58
    · subst hch
      rw [splitOn_colon, splitOn_colon, padded_skip (List.splitOn_ne_nil _ _), ← splitOn_colon] at hpadded
      rw [splitOn_colon, ih hpadded]
      rfl
    · rw [splitOn_char hch] at hpadded
      exact absurd hpadded not_padded_cons
  | @last ch r hcolon =>
    by_cases hch : ch = 58
    · subst hch
      rw [splitOn_colon, List.splitOn_eq_singleton hcolon] at hpadded ⊢
      have hr : r ≠ [] := by
        rintro rfl
        exact hpadded.last (List.suffix_refl _)
      simp [hr]
    · rw [List.splitOn_eq_singleton (not_mem_cons hch hcolon)] at hpadded
      exact absurd hpadded not_padded_cons
  | @dir ch d t ds hd hcolon h ih =>
    by_cases hch : ch = 58
    · subst hch
      rw [splitOn_colon, splitOn_dir hcolon] at hpadded ⊢
      rw [ih ((padded_dir hd (List.splitOn_ne_nil _ _)).1 hpadded)]
      simp [hd]
    · rw [← List.cons_append, splitOn_dir (not_mem_cons hch hcolon)] at hpadded
      exact absurd hpadded not_padded_cons

/-- The length of the file in a directory, and nothing for no directory. -/
def weight (c : StdString) : ℕ := if c = [] then 0 else (fileIn c).length

theorem weight_nil : weight [] = 0 := rfl

/-- A dropped character makes a file shorter. -/
theorem weight_lt_cons (ch : UInt8) (d : StdString) : weight d < weight (ch :: d) := by
  have hpos := List.length_pos_iff.2 (fileIn_ne_nil (ch :: d))
  unfold weight
  rw [if_neg (List.cons_ne_nil ch d)]
  rcases d with - | ⟨x, d⟩
  · exact hpos
  · have hlast : (ch :: x :: d).getLast? = (x :: d).getLast? := List.getLast?_cons_cons
    rw [if_neg (List.cons_ne_nil x d)]
    simp only [fileIn, hlast, ne_eq, List.cons_ne_nil, not_false_eq_true, true_and]
    split <;> simp

def total (ds : List StdString) : ℕ := (ds.map weight).sum

theorem total_cons (d : StdString) (ds : List StdString) : total (d :: ds) = weight d + total ds := by
  simp [total]

theorem total_filter (cs : List StdString) : total (cs.filter (· ≠ [])) = total cs := by
  induction cs with
  | nil => rfl
  | cons c cs ih =>
    by_cases hc : c = []
    · subst hc
      rw [total_cons, weight_nil, zero_add, ← ih]
      rfl
    · rw [List.filter_cons_of_pos (by simpa using hc), total_cons, total_cons, ih]

/-- **What is read otherwise** is shorter. -/
theorem reads_total (h : Reads s ds) (hne : [] ∉ ds) : total ds ≤ total (s.splitOn 58) ∧
    (Padded (s.splitOn 58) ∨ total ds < total (s.splitOn 58)) := by
  induction h with
  | stop => exact ⟨Nat.le_refl _, Or.inl padded_nil⟩
  | @skip ch r ds h ih =>
    obtain ⟨hle, hstrict⟩ := ih hne
    rw [splitOn_colon, total_cons, weight_nil, zero_add] at hle hstrict
    by_cases hch : ch = 58
    · subst hch
      rw [splitOn_colon, splitOn_colon, padded_skip (List.splitOn_ne_nil _ _), total_cons, total_cons, weight_nil,
        zero_add, zero_add]
      exact ⟨hle, hstrict⟩
    · -- the character was a directory
      have hlt := weight_lt_cons ch []
      rw [splitOn_char hch, total_cons]
      exact ⟨by omega, Or.inr (by omega)⟩
  | @last ch r hcolon =>
    have hr : r ≠ [] := fun h => hne (h ▸ List.mem_cons_self)
    by_cases hch : ch = 58
    · subst hch
      rw [splitOn_colon, List.splitOn_eq_singleton hcolon, total_cons [] [r], weight_nil, zero_add]
      exact ⟨Nat.le_refl _, Or.inl (padded_pair hr)⟩
    · -- the character was the first of the last directory
      have hlt := weight_lt_cons ch r
      rw [List.splitOn_eq_singleton (not_mem_cons hch hcolon), total_cons, total_cons]
      exact ⟨by omega, Or.inr (by omega)⟩
  | @dir ch d t ds hd hcolon h ih =>
    obtain ⟨hle, hstrict⟩ := ih fun h => hne (List.mem_cons_of_mem d h)
    by_cases hch : ch = 58
    · subst hch
      rw [splitOn_colon, splitOn_dir hcolon, padded_dir hd (List.splitOn_ne_nil _ _), total_cons, total_cons,
        total_cons, weight_nil, zero_add]
      exact ⟨by omega, hstrict.imp_right fun h => by omega⟩
    · -- the character was the first of the directory
      have hlt := weight_lt_cons ch d
      rw [← List.cons_append, splitOn_dir (not_mem_cons hch hcolon), total_cons, total_cons]
      exact ⟨by omega, Or.inr (by omega)⟩

/-! ## When all directories are read -/

theorem upToFirst_none (files : List StdString) : upToFirst (fun _ => false) files = files := by
  induction files with
  | nil => rfl
  | cons file files ih => rw [upToFirst, ih, if_neg (by simp)]

theorem fileIn_eq_name_iff : fileIn d = aflExecutableName ↔ d = [] := by
  constructor
  · intro h
    have hlen := congrArg List.length h
    by_contra hd
    have hpos := List.length_pos_iff.2 hd
    unfold fileIn at hlen
    rw [List.length_append] at hlen
    split at hlen
    · rw [List.length_append] at hlen
      omega
    · omega
  · rintro rfl
    rfl

theorem total_eq (hne : [] ∉ ds) : total ds = ((ds.map fileIn).map List.length).sum := by
  induction ds with
  | nil => rfl
  | cons d ds ih =>
    rw [List.mem_cons, not_or] at hne
    rw [total_cons, ih hne.2, weight, if_neg (Ne.symm hne.1)]
    rfl

/-- If no file is executable, the files of all components were only tested if these are padded. -/
theorem padded_of_files (h : Reads s ds) (hfiles : ds.map fileIn = ((s.splitOn 58).filter (· ≠ [])).map fileIn) :
    Padded (s.splitOn 58) := by
  have hcs : [] ∉ (s.splitOn 58).filter (· ≠ []) := by
    intro hmem
    simpa using List.of_mem_filter hmem
  -- an empty directory would have `afl-fuzz` as its file, which is that of no component
  have hne : [] ∉ ds := by
    intro hmem
    have hname : aflExecutableName ∈ ds.map fileIn := List.mem_map.2 ⟨[], hmem, rfl⟩
    rw [hfiles] at hname
    obtain ⟨c, hc, hfile⟩ := List.mem_map.1 hname
    exact hcs (fileIn_eq_name_iff.1 hfile ▸ hc)
  have htotal : total ds = total (s.splitOn 58) := by
    rw [← total_filter (s.splitOn 58), total_eq hne, total_eq hcs, hfiles]
  rcases (reads_total h hne).2 with hpadded | hlt
  · exact hpadded
  · omega

/-- **When the lookup follows PATH**, whatever files there are: each component that is not empty directly follows an
empty one, and the last two are not both empty. -/
theorem followsPath_iff (path : CString) :
    (∀ executable, executable aflExecutableName = false → FollowsPath executable path) ↔ Padded (pathDirs path) := by
  obtain ⟨ds, hreads⟩ := exists_reads path.chars
  constructor
  · -- with no executable file, all that is read is tested
    intro h
    obtain ⟨turns, hturns⟩ := h (fun _ => false) rfl
    have hrun := hturns (turns + path.chars.length + 1) (by omega)
    rw [lookup_eq rfl hreads (by omega)] at hrun
    have htested := congrArg (fun r => r.2.tested) (Except.ok.inj hrun)
    simp only [upToFirst_none, List.cons_inj_right] at htested
    exact padded_of_files hreads htested
  · intro hpadded executable hname
    refine ⟨path.chars.length + 1, fun fuel hfuel => ?_⟩
    rw [lookup_eq hname hreads hfuel, reads_padded hreads hpadded]
    rfl

def usrBin : CString := ⟨text "/usr/bin", by decide⟩

/-- With one directory in PATH, its first character is lost and the file in it is not found. -/
theorem usrBin_not_followed : ¬ ∀ (path : CString) (executable : StdString → Bool),
    executable aflExecutableName = false → FollowsPath executable path := by
  intro h
  have hname : (aflExecutableName == fileIn usrBin.chars) = false := by decide
  obtain ⟨turns, hturns⟩ := h usrBin (· == fileIn usrBin.chars) hname
  have hreads : Reads usrBin.chars [text "usr/bin"] := .last 47 (by decide)
  have hrun := hturns (turns + usrBin.chars.length + 1) (by omega)
  rw [lookup_eq hname hreads (by omega)] at hrun
  have hfound : [] = fileIn usrBin.chars := congrArg Prod.fst (Except.ok.inj hrun)
  exact fileIn_ne_nil _ hfound.symm

/-! ## When the directories up to the first hit are read -/

section UpToFirst

variable {p : StdString → Bool} {l more : List StdString}

theorem upToFirst_prefix (p : StdString → Bool) (l : List StdString) : upToFirst p l <+: l := by
  induction l with
  | nil => exact List.prefix_refl []
  | cons x l ih =>
    rw [upToFirst, List.cons_prefix_cons]
    refine ⟨rfl, ?_⟩
    split
    · exact List.nil_prefix
    · exact ih

theorem upToFirst_of_none (h : l.find? p = none) : upToFirst p l = l := by
  induction l with
  | nil => rfl
  | cons x l ih =>
    rw [List.find?_eq_none, List.forall_mem_cons, ← List.find?_eq_none] at h
    rw [upToFirst, if_neg h.1, ih h.2]

/-- What follows the first is not looked at. -/
theorem upToFirst_append (h : l.find? p ≠ none) (more : List StdString) :
    upToFirst p (l ++ more) = upToFirst p l ∧ (l ++ more).find? p = l.find? p := by
  induction l with
  | nil => exact absurd rfl h
  | cons x l ih =>
    by_cases hx : p x = true
    · simp [upToFirst, hx]
    · rw [List.find?_cons_of_neg hx] at h
      simp [upToFirst, hx, ih h]

/-- The first is the last of what leads up to it. -/
theorem upToFirst_of_some {x : StdString} (h : l.find? p = some x) :
    p x = true ∧ (∃ front, upToFirst p l = front ++ [x]) ∧ (upToFirst p l).find? p = some x ∧
      upToFirst p (upToFirst p l) = upToFirst p l := by
  induction l with
  | nil => cases h
  | cons y l ih =>
    by_cases hy : p y = true
    · rw [List.find?_cons_of_pos hy] at h
      cases h
      simp [upToFirst, hy]
    · rw [List.find?_cons_of_neg hy] at h
      obtain ⟨hx, ⟨front, hfront⟩, hfind, hself⟩ := ih h
      refine ⟨hx, ⟨y :: front, ?_⟩, ?_, ?_⟩
      · rw [upToFirst, if_neg hy, hfront, List.cons_append]
      · rw [upToFirst, if_neg hy, List.find?_cons_of_neg hy, hfind]
      · rw [upToFirst, if_neg hy, upToFirst, if_neg hy, hself]

end UpToFirst

/-- Files of the components up to the first hit are the files up to the first executable one. -/
theorem files_dirsToFirst (executable : StdString → Bool) (cs : List StdString) :
    ((dirsToFirst executable cs).filter (· ≠ [])).map fileIn =
      upToFirst executable ((cs.filter (· ≠ [])).map fileIn) := by
  unfold dirsToFirst
  induction cs with
  | nil => rfl
  | cons c cs ih =>
    by_cases hc : c = []
    · simpa [upToFirst, isHit, hc] using ih
    · by_cases hexec : executable (fileIn c) = true
      · simp [upToFirst, isHit, hc, hexec]
      · simpa [upToFirst, isHit, hc, hexec] using ih

theorem prefix_dirsToFirst (executable : StdString → Bool) (cs : List StdString) : dirsToFirst executable cs <+: cs :=
  upToFirst_prefix (isHit executable) cs

/-- Whether there is a hit. -/
theorem find?_files (executable : StdString → Bool) (cs : List StdString) :
    ((cs.filter (· ≠ [])).map fileIn).find? executable = (cs.find? (isHit executable)).map fileIn := by
  induction cs with
  | nil => rfl
  | cons c cs ih =>
    by_cases hc : c = []
    · simpa [isHit, hc] using ih
    · by_cases hexec : executable (fileIn c) = true
      · simp [isHit, hc, hexec]
      · simpa [isHit, hc, hexec] using ih

variable {cs : List StdString}

/-- **What is read when the first components are padded**: their directories first. -/
theorem prefix_of_padded (h : Reads s ds) (hcs : cs <+: s.splitOn 58) (hpadded : Padded cs) :
    cs.filter (· ≠ []) <+: ds := by
  obtain ⟨cs, rfl⟩ : ∃ cs', cs = [] :: cs' := by
    rcases cs with - | ⟨c, cs⟩
    · cases hpadded.first
    · exact ⟨cs, congrArg (· :: cs) (Option.some.inj hpadded.first)⟩
  induction h generalizing cs with
  | stop =>
    obtain rfl := List.prefix_nil.1 (List.cons_prefix_cons.1 hcs).2
    exact List.nil_prefix
  | @skip ch r ds h ih =>
    by_cases hch : ch = 58
    · -- the character that is lost is the colon behind the empty component
      subst hch
      rw [splitOn_colon, splitOn_colon, List.cons_prefix_cons] at hcs
      rcases cs with - | ⟨c, cs⟩
      · exact List.nil_prefix
      obtain rfl := (List.cons_prefix_cons.1 hcs.2).1
      rw [← splitOn_colon] at hcs
      rcases cs with - | ⟨c, cs⟩
      · exact List.nil_prefix
      exact ih (c :: cs) hcs.2 ((padded_skip (List.cons_ne_nil c cs)).1 hpadded)
    · rw [splitOn_char hch, List.cons_prefix_cons] at hcs
      cases hcs.1
  | @last ch r hcolon =>
    by_cases hch : ch = 58
    · subst hch
      rw [splitOn_colon, List.splitOn_eq_singleton hcolon, List.cons_prefix_cons] at hcs
      rcases List.prefix_cons_iff.1 hcs.2 with rfl | ⟨t, rfl, ht⟩
      · exact List.nil_prefix
      · obtain rfl := List.prefix_nil.1 ht
        by_cases hr : r = [] <;> simp [hr]
    · rw [List.splitOn_eq_singleton (not_mem_cons hch hcolon), List.cons_prefix_cons] at hcs
      cases hcs.1
  | @dir ch d t ds hd hcolon h ih =>
    by_cases hch : ch = 58
    · subst hch
      rw [splitOn_colon, splitOn_dir hcolon, List.cons_prefix_cons] at hcs
      rcases List.prefix_cons_iff.1 hcs.2 with rfl | ⟨cs, rfl, ht⟩
      · exact List.nil_prefix
      rcases cs with - | ⟨c, cs⟩
      · simp [hd]
      -- the colon behind the directory is not read, and is lost instead of a character
      have hrest := (padded_dir hd (List.cons_ne_nil c cs)).1 hpadded
      obtain rfl : c = [] := Option.some.inj hrest.first
      have hprefix := ih cs ht hrest
      simpa [hd] using hprefix
    · rw [← List.cons_append, splitOn_dir (not_mem_cons hch hcolon), List.cons_prefix_cons] at hcs
      cases hcs.1

/-- A dropped character makes another file. -/
theorem fileIn_cons_ne (ch : UInt8) (d : StdString) : fileIn (ch :: d) ≠ fileIn d := by
  intro h
  rcases d with - | ⟨x, d⟩
  · cases fileIn_eq_name_iff.1 h
  · have hlt := weight_lt_cons ch (x :: d)
    unfold weight at hlt
    rw [if_neg (List.cons_ne_nil _ _), if_neg (List.cons_ne_nil _ _), h] at hlt
    exact lt_irrefl _ hlt

/-- Behind a colon a component is read as it is. -/
theorem mem_of_reads_colon {r : StdString} (h : Reads (58 :: r) (d :: ds)) : d ∈ r.splitOn 58 := by
  generalize hs : 58 :: r = s at h
  generalize hds : d :: ds = l at h
  induction h generalizing r with
  | stop => cases hs
  | skip ch h ih =>
    cases hs
    rw [splitOn_colon]
    exact List.mem_cons_of_mem _ (ih rfl hds)
  | last ch hcolon =>
    cases hs
    cases hds
    rw [List.splitOn_eq_singleton hcolon]
    exact List.mem_cons_self
  | dir ch hd hcolon h ih =>
    cases hs
    cases hds
    rw [splitOn_dir hcolon]
    exact List.mem_cons_self

/-- **What is read when the first components are not padded** begins with other files, if no file is in PATH twice. -/
theorem padded_of_prefix (h : Reads s ds) {c : StdString} (hc : c ≠ []) (hlast : cs.getLast? = some c)
    (hcs : cs <+: s.splitOn 58) (hnodup : (((s.splitOn 58).filter (· ≠ [])).map fileIn).Nodup)
    (hfiles : (cs.filter (· ≠ [])).map fileIn <+: ds.map fileIn) : Padded cs := by
  obtain ⟨x, cs, rfl⟩ : ∃ x cs', cs = x :: cs' := by
    rcases cs with - | ⟨x, cs⟩
    · cases hlast
    · exact ⟨x, cs, rfl⟩
  induction h generalizing x cs with
  | stop =>
    obtain ⟨rfl, hrest⟩ := List.cons_prefix_cons.1 hcs
    obtain rfl := List.prefix_nil.1 hrest
    exact absurd (Option.some.inj hlast).symm hc
  | @skip ch r ds h ih =>
    by_cases hch : ch = 58
    · subst hch
      rw [splitOn_colon, splitOn_colon, List.cons_prefix_cons] at hcs
      obtain ⟨rfl, hcs⟩ := hcs
      rcases cs with - | ⟨y, - | ⟨z, cs⟩⟩
      · exact absurd (Option.some.inj hlast).symm hc
      · obtain rfl := (List.cons_prefix_cons.1 hcs).1
        exact absurd (Option.some.inj hlast).symm hc
      · obtain rfl := (List.cons_prefix_cons.1 hcs).1
        rw [← splitOn_colon] at hcs
        rw [splitOn_colon] at hnodup
        exact (padded_skip (List.cons_ne_nil z cs)).2 (ih hnodup [] (z :: cs) hlast hcs hfiles)
    · -- the character was a directory, and the next one has another file
      rw [splitOn_char hch, List.cons_prefix_cons] at hcs
      obtain ⟨rfl, -⟩ := hcs
      rw [splitOn_char hch] at hnodup
      rcases ds with - | ⟨d, ds⟩
      · simpa using hfiles.length_le
      have hfile : fileIn [ch] = fileIn d := (List.cons_prefix_cons.1 hfiles).1
      have hd : d ≠ [] := by
        rintro rfl
        exact fileIn_cons_ne ch [] hfile
      have hmem : d ∈ (r.splitOn 58).filter (· ≠ []) :=
        List.mem_filter.2 ⟨mem_of_reads_colon h, decide_eq_true hd⟩
      have hnot := (List.nodup_cons.1 hnodup).1
      rw [hfile] at hnot
      exact absurd (List.mem_map_of_mem hmem) hnot
  | @last ch r hcolon =>
    by_cases hch : ch = 58
    · subst hch
      rw [splitOn_colon, List.splitOn_eq_singleton hcolon, List.cons_prefix_cons] at hcs
      obtain ⟨rfl, hcs⟩ := hcs
      rcases cs with - | ⟨y, cs⟩
      · exact absurd (Option.some.inj hlast).symm hc
      · obtain ⟨rfl, hrest⟩ := List.cons_prefix_cons.1 hcs
        obtain rfl := List.prefix_nil.1 hrest
        cases hlast
        exact padded_pair hc
    · -- the first character of the component is lost, and with it its file
      rw [List.splitOn_eq_singleton (not_mem_cons hch hcolon), List.cons_prefix_cons] at hcs
      obtain ⟨rfl, -⟩ := hcs
      exact absurd (List.cons_prefix_cons.1 hfiles).1 (fileIn_cons_ne ch r)
  | @dir ch d t ds hd hcolon h ih =>
    by_cases hch : ch = 58
    · subst hch
      rw [splitOn_colon, splitOn_dir hcolon, List.cons_prefix_cons] at hcs
      obtain ⟨rfl, hcs⟩ := hcs
      rw [splitOn_colon, splitOn_dir hcolon] at hnodup
      rcases cs with - | ⟨y, cs⟩
      · exact absurd (Option.some.inj hlast).symm hc
      obtain ⟨rfl, hrest⟩ := List.cons_prefix_cons.1 hcs
      rcases cs with - | ⟨z, cs⟩
      · exact padded_pair hd
      · have hnodup' : (fileIn y :: ((t.splitOn 58).filter (· ≠ [])).map fileIn).Nodup := by simpa [hd] using hnodup
        have hfiles' : fileIn y :: ((z :: cs).filter (· ≠ [])).map fileIn <+: fileIn y :: ds.map fileIn := by
          simpa [hd] using hfiles
        have hnext := ih (List.nodup_cons.1 hnodup').2 z cs hlast hrest (List.cons_prefix_cons.1 hfiles').2
        exact (padded_dir hd (List.cons_ne_nil z cs)).2 hnext
    · rw [← List.cons_append, splitOn_dir (not_mem_cons hch hcolon), List.cons_prefix_cons] at hcs
      obtain ⟨rfl, -⟩ := hcs
      exact absurd (List.cons_prefix_cons.1 hfiles).1 (fileIn_cons_ne ch d)

/-- **The directories up to the first hit are enough** for the lookup to follow PATH. -/
theorem followsPath_of_padded {executable : StdString → Bool} (hname : executable aflExecutableName = false)
    {path : CString} (hpadded : Padded (dirsToFirst executable (pathDirs path))) : FollowsPath executable path := by
  obtain ⟨ds, hreads⟩ := exists_reads path.chars
  refine ⟨path.chars.length + 1, fun fuel hfuel => ?_⟩
  rw [lookup_eq hname hreads hfuel]
  cases hhit : (pathDirs path).find? (isHit executable) with
  | none =>
    rw [dirsToFirst, upToFirst_of_none hhit] at hpadded
    rw [reads_padded hreads hpadded]
    rfl
  | some c =>
    -- what is read begins with the files up to the hit, and the lookup ends there
    have hfirst : (((pathDirs path).filter (· ≠ [])).map fileIn).find? executable = some (fileIn c) := by
      rw [find?_files, hhit]
      rfl
    obtain ⟨-, -, hfind, hself⟩ := upToFirst_of_some hfirst
    have hprefix : ((dirsToFirst executable (pathDirs path)).filter (· ≠ [])).map fileIn <+: ds.map fileIn :=
      (prefix_of_padded hreads (prefix_dirsToFirst executable _) hpadded).map fileIn
    rw [files_dirsToFirst] at hprefix
    obtain ⟨more, hmore⟩ := hprefix
    have hne : (upToFirst executable (((pathDirs path).filter (· ≠ [])).map fileIn)).find? executable ≠ none := by
      rw [hfind]
      exact Option.some_ne_none _
    obtain ⟨htested, hfound⟩ := upToFirst_append hne more
    rw [← hmore, htested, hfound, hself, hfind, hfirst]

/-- **When the lookup follows PATH** with given files, if none is in PATH twice. -/
theorem followsPath_iff_padded {executable : StdString → Bool} (hname : executable aflExecutableName = false)
    {path : CString} (hnodup : (((pathDirs path).filter (· ≠ [])).map fileIn).Nodup) :
    FollowsPath executable path ↔ Padded (dirsToFirst executable (pathDirs path)) := by
  refine ⟨?_, followsPath_of_padded hname⟩
  rintro ⟨turns, hturns⟩
  obtain ⟨ds, hreads⟩ := exists_reads path.chars
  have hrun := hturns (turns + path.chars.length + 1) (by omega)
  rw [lookup_eq hname hreads (by omega)] at hrun
  have htested := congrArg (fun r => r.2.tested) (Except.ok.inj hrun)
  have hfound := congrArg Prod.fst (Except.ok.inj hrun)
  simp only [List.cons_inj_right] at htested
  cases hhit : (pathDirs path).find? (isHit executable) with
  | none =>
    -- without a hit all directories are tested, so that all of them have to be read
    rw [find?_files, hhit] at hfound
    have hnone : (ds.map fileIn).find? executable = none := by
      cases hfile : (ds.map fileIn).find? executable with
      | none => rfl
      | some file =>
        rw [hfile] at hfound
        obtain ⟨d, -, hd⟩ := List.mem_map.1 (List.mem_of_find?_eq_some hfile)
        exact absurd (hd.trans hfound) (fileIn_ne_nil d)
    have hnone' : (((pathDirs path).filter (· ≠ [])).map fileIn).find? executable = none := by
      rw [find?_files, hhit]
      rfl
    rw [upToFirst_of_none hnone, upToFirst_of_none hnone'] at htested
    rw [dirsToFirst, upToFirst_of_none hhit]
    exact padded_of_files hreads htested
  | some c =>
    obtain ⟨hc, ⟨front, hfront⟩, -⟩ := upToFirst_of_some hhit
    have hne : c ≠ [] := by
      rintro rfl
      cases hc
    refine padded_of_prefix hreads hne ?_ (prefix_dirsToFirst executable _) hnodup ?_
    · rw [dirsToFirst, hfront]
      exact List.getLast?_concat
    · rw [files_dirsToFirst, ← htested]
      exact upToFirst_prefix _ _

end Caf.Lookup
