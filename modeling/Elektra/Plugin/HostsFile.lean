import Elektra.Plugin.HostsComments

/-!
# Comments in a line

* `CommentAt`: a comment as it stands in a line; **`parseComment_comment`**: it is found there.
-/

namespace Elektra.Hosts

open Ease
open Csvstorage (newline)

def Blank (s : Str) : Prop := ∀ c ∈ s, isblank c = true

/-- The end of the line. -/
def Over (s : Str) : Prop := s = [] ∨ s = [newline]

inductive CommentAt : Str → Comment → Prop
  | empty {blanks : Str} {c : Comment} : Blank blanks → c.spaces = blanks.length → c.sharp = false →
      CommentAt (blanks ++ [newline]) c
  | sharp {blanks rest : Str} {c : Comment} : Blank blanks → c.spaces = blanks.length → c.sharp = true → Over rest →
      CommentAt (blanks ++ 35 :: (c.text ++ rest)) c

variable {s : Str} {c : Comment} {constructor : MetaSet → ℕ → Option Str → Option Str → Option MetaSet}
  {comments : MetaSet}

/-- **A comment is found where it stands.** -/
theorem parseComment_comment (h : CommentAt s c) :
    parseComment constructor comments s = (constructor comments c.spaces c.start c.data).map some := by
  unfold parseComment
  cases h with
  | @empty blanks _ hblank hspaces hsharp =>
    have hstop : ∀ d, [newline].head? = some d → isblank d = false := by
      intro d hd
      cases hd
      rfl
    rw [(takeWhile_stop hblank hstop).1, (takeWhile_stop hblank hstop).2, hspaces, Comment.start, Comment.data,
      if_neg (by rw [hsharp]; decide), if_neg (by rw [hsharp]; decide)]
    dsimp only
    rw [if_pos rfl]
  | @sharp blanks rest _ hblank hspaces hsharp hover =>
    have hstop : ∀ d, (35 :: (c.text ++ rest)).head? = some d → isblank d = false := by
      intro d hd
      cases hd
      rfl
    have htext : (c.text ++ rest).takeWhile (· ≠ newline) = c.text := by
      refine (takeWhile_stop (p := (· ≠ newline)) (fun d hd => ?_) fun d hd => ?_).1
      · exact decide_eq_true fun he => c.line (he ▸ hd)
      obtain rfl | rfl := hover
      · cases hd
      · cases hd
        rfl
    rw [(takeWhile_stop hblank hstop).1, (takeWhile_stop hblank hstop).2, hspaces, Comment.start, Comment.data,
      if_pos hsharp, if_pos hsharp]
    dsimp only
    rw [if_neg (by decide), if_pos rfl, htext]

end Elektra.Hosts
