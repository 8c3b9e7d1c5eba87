import Elektra.Plugin.HostsFile
import Elektra.Plugin.Records

/-!
# Metadata of the keys of hosts

The comments of an entry are set on its key all at once.

* `work_setMetaKeySet`: the metadata of the key;
* `readComments`, **`comments_written`**: comments are written as they were read.
-/

namespace Elektra.Hosts

open Ease Records
open Csvstorage (newline)

section Metadata

/-- **Metadata is set**, of different names. -/
theorem work_setMetaKeySet : ∀ {l : MetaSet} {k : Key} {r : Record}, Work k r → (l.map Prod.fst).Nodup →
    str "binary" ∉ l.map Prod.fst →
    Work (elektraKeySetMetaKeySet k l) { r with metadata := fun m => (l.lookup m).or (r.metadata m) }
  | [], _, _, h, _, _ => h
  | (n, v) :: l, k, r, h, hnodup, hbinary => by
    rw [List.map_cons, List.nodup_cons] at hnodup
    rw [List.map_cons, List.mem_cons, not_or] at hbinary
    have hrest := work_setMetaKeySet (@Work.setMeta k r n h (Ne.symm hbinary.1) (some v)) hnodup.2 hbinary.2
    have hmeta : (fun m => (((n, v) :: l).lookup m).or (r.metadata m)) =
        fun m => (l.lookup m).or (if m = n then some v else r.metadata m) := by
      funext m
      rw [List.lookup_cons]
      split_ifs with hm
      · have hnone : l.lookup n = none := lookup_eq_none_of fun p hp he => hnodup.1 (List.mem_map.mpr ⟨p, hp, he⟩)
        rw [beq_iff_eq.mpr hm, hm, hnone]
        rfl
      · rw [beq_eq_false_iff_ne.mpr hm]
    rw [hmeta]
    exact hrest

end Metadata

section Comments

variable {key : Key} {r : Record} {lines : List Str} {before : List Comment}

/-- The lines before an entry, as far as they are comments. -/
def readComments (lines : List Str) (comments : MetaSet) : Option MetaSet :=
  lines.foldlM (fun comments line => (parseComment elektraAddLineComment comments line).join) comments

theorem readComments_eq : ∀ {lines : List Str} {l : List Comment} {before : List Comment}, List.Forall₂ CommentAt lines l →
    (before ++ l).length < 10 ^ 10 →
    readComments lines (metaFrom 0 (held none before)) = some (metaFrom 0 (held none (before ++ l)))
  | [], _, before, .nil, _ => by
    rw [List.append_nil]
    rfl
  | line :: lines, c :: l, before, .cons hline hlines, hlen => by
    rw [List.append_cons] at hlen ⊢
    have hfirst : before.length + 1 < 10 ^ 10 := by
      rw [List.length_append, List.length_append, List.length_singleton] at hlen
      omega
    rw [readComments, List.foldlM_cons, parseComment_comment hline, elektraAddLineComment_eq c before hfirst]
    exact readComments_eq hlines hlen

theorem nodup_metaFrom (comments : List Comment) : ((metaFrom 0 comments).map Prod.fst).Nodup := by
  refine List.pairwise_map.mpr ((sorted_metaFrom 0 comments).imp fun hlt he => ?_)
  rw [he, Std.ReflOrd.compare_self] at hlt
  cases hlt

/-- The key of an entry has its comments. -/
theorem commented_setMetaKeySet (h : Work key r) (hfree : ∀ m, (str "comment").isPrefixOf m = true → r.metadata m = none)
    (comments : List Comment) : Commented (elektraKeySetMetaKeySet key (metaFrom 0 comments)) comments := by
  have hbinary : str "binary" ∉ (metaFrom 0 comments).map Prod.fst := by
    intro hmem
    obtain ⟨m, hm, hname⟩ := List.mem_map.mp hmem
    obtain ⟨i, -, -, x, -, hx⟩ := mem_metaFrom hm
    cases hname.symm.trans hx
  intro m hm
  rw [(work_setMetaKeySet h (nodup_metaFrom comments) hbinary).metadata]
  dsimp only
  rw [hfree m hm, Option.or_none]

/-- What is written is a comment again. -/
theorem commentAt_written (c : Comment) : CommentAt (c.written ++ [newline]) c := by
  have hblank : Blank (List.replicate c.spaces 32) := fun b hb => by
    rw [List.eq_of_mem_replicate hb]
    rfl
  have hlen : c.spaces = (List.replicate c.spaces (32 : UInt8)).length := List.length_replicate.symm
  rw [Comment.written]
  split_ifs with hsharp
  · rw [List.append_assoc]
    exact .sharp hblank hlen hsharp (.inr rfl)
  · rw [List.append_nil]
    exact .empty hblank hlen (Bool.eq_false_of_not_eq_true hsharp)

end Comments

end Elektra.Hosts
