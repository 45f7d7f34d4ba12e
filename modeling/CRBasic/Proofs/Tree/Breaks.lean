import CRBasic.Proofs.Comments
import CRBasic.Proofs.Lexer.LineStarts
import CRBasic.Proofs.Tree.Elements

/-!
# Line breaks before nodes

A node that takes a comment on a line of its own leaves the line break before it to the node around.  So if
there is a line break in the gap before the first word of a node, there is one before the node
(`Node.Stands.exists_lead`).
-/

namespace CRBasic

namespace Lexeme

/-- Whether there is a line break among some lexemes. -/
def hasBreak (xs : List Lexeme) : Bool := xs.any (·.kind == .newline)

theorem hasBreak_cons (x : Lexeme) (xs : List Lexeme) :
    hasBreak (x :: xs) = (x.kind == .newline || hasBreak xs) := List.any_cons

theorem hasBreak_append (xs ys : List Lexeme) : hasBreak (xs ++ ys) = (hasBreak xs || hasBreak ys) :=
  List.any_append

/-- A comment on a line of its own stands at the start, or behind a line break. -/
theorem exists_of_mem_ownLineComments {startsLine : Bool} {xs ys : List Lexeme}
    (h : ys ∈ ownLineComments startsLine xs) :
    ∃ zs, xs = zs ++ ys ∧ (startsLine = true ∨ hasBreak zs) := by
  induction xs generalizing startsLine with
  | nil => cases h
  | cons x xs ih =>
    rw [ownLineComments] at h
    split at h
    · next hown =>
      rcases List.mem_cons.1 h with rfl | h
      · exact ⟨[], rfl, .inl (Bool.and_eq_true_iff.1 hown).1⟩
      · obtain ⟨zs, rfl, hbreak⟩ := ih h
        refine ⟨x :: zs, rfl, .inr ?_⟩
        rw [hasBreak_cons, hbreak.resolve_left Bool.false_ne_true, Bool.or_true]
    · obtain ⟨zs, rfl, hbreak⟩ := ih h
      rw [Bool.or_eq_true, or_assoc, ← Bool.or_eq_true, ← hasBreak_cons] at hbreak
      exact ⟨x :: zs, rfl, hbreak⟩

end Lexeme

open Lexeme

/-- A word starts a line if there is a line break in the gap before it. -/
theorem Word.ofLexemes_gap (startsLine : Bool) {gap : List Lexeme} (hgap : ∀ x ∈ gap, x.kind.isTrivia)
    {x : Lexeme} (hx : x.kind.isTrivia = false) (xs : List Lexeme) :
    ofLexemes startsLine (gap ++ x :: xs) =
      ⟨x.kind, x.text, startsLine || hasBreak gap⟩ :: ofLexemes false xs := by
  induction gap generalizing startsLine with
  | nil => rw [List.nil_append, ofLexemes, if_neg (by simp [hx]), hasBreak, List.any_nil, Bool.or_false]
  | cons y gap ih =>
    obtain ⟨hy, hgap⟩ := List.forall_mem_cons.1 hgap
    rw [List.cons_append, ofLexemes, if_pos hy, ih _ hgap, hasBreak_cons, Bool.or_assoc]

/-- The word behind another one starts a line if there is a line break between them. -/
theorem Word.exists_ofLexemes_behind (b : Bool) (us : List Lexeme) {x y : Lexeme}
    (hx : x.kind.isTrivia = false) (hy : y.kind.isTrivia = false) {gap : List Lexeme}
    (hgap : ∀ z ∈ gap, z.kind.isTrivia) (vs : List Lexeme) :
    ∃ c, ofLexemes b (us ++ x :: (gap ++ y :: vs)) =
      ofLexemes b us ++ ⟨x.kind, x.text, c⟩ :: ⟨y.kind, y.text, hasBreak gap⟩ :: ofLexemes false vs := by
  obtain ⟨c, hc⟩ := exists_ofLexemes_append b us (x :: (gap ++ y :: vs))
  exact ⟨c, by rw [hc, ofLexemes, if_neg (by simp [hx]), ofLexemes_gap false hgap hy, Bool.false_or]⟩

namespace Gap

variable {xs : List Lexeme} {front mid : List Lexeme} {x : Lexeme}

/-- A gap starts behind the last word before it. -/
theorem trivia_eq (g : Gap xs) (hx : x.kind.isTrivia = false) (hmid : ∀ y ∈ mid, y.kind.isTrivia)
    (h : g.front ++ g.trivia = front ++ x :: mid) : g.front = front ++ [x] ∧ g.trivia = mid := by
  have h : g.front ++ g.trivia = (front ++ [x]) ++ mid := by rw [h]; simp
  rcases List.append_eq_append_iff.1 h with ⟨ys, hys, hgap⟩ | ⟨ys, hys, hgap⟩
  · rcases List.eq_nil_or_concat' ys with rfl | ⟨zs, z, rfl⟩
    · exact ⟨by simpa using hys.symm, hgap⟩
    · rw [← List.append_assoc] at hys
      obtain rfl : x = z := List.singleton_inj.1 (List.append_inj' hys rfl).2
      have htrivia := g.isTrivia x (by simp [hgap])
      rw [hx] at htrivia
      cases htrivia
  · rcases List.eq_nil_or_concat' ys with rfl | ⟨zs, z, rfl⟩
    · exact ⟨by simpa using hys, hgap.symm⟩
    · rw [← List.append_assoc] at hys
      have hword := g.isTrivia_getLast z (by rw [hys, List.getLast?_concat]; rfl)
      rw [hmid z (by simp [hgap])] at hword
      cases hword

/-- A node takes the end of a gap, which comes after a line break if the gap is behind a word. -/
theorem exists_leading (g : Gap xs) (k : Nat) : ∃ skipped, g.trivia = skipped ++ g.leading k ∧
    (g.front ≠ [] → hasBreak (g.leading k) → hasBreak skipped) := by
  rw [leading]
  cases hk : g.comments[k]? with
  | none => exact ⟨g.trivia, (List.append_nil _).symm, fun _ => Bool.noConfusion⟩
  | some ys =>
    obtain ⟨zs, hzs, hbreak⟩ := exists_of_mem_ownLineComments (List.mem_of_getElem? hk)
    refine ⟨zs, hzs, fun hfront _ => hbreak.resolve_left ?_⟩
    simpa using hfront

end Gap

namespace Node

/-- What a node begins with ends where the gap ends. -/
theorem BeginsIn.append_leading {xs front back : List Lexeme} {n : Node} {g : Gap xs} {k : Nat}
    (h : n.BeginsIn g k) (hxs : front ++ Tree.leavesOfAll n.children ++ back = xs)
    (hstart : n.start = byteLength (joined front)) (htext : ∀ x ∈ xs, x.text ≠ []) :
    front ++ g.leading k = g.front ++ g.trivia := by
  obtain ⟨hadd, inner, hleaves⟩ := h
  have hsplit : (front ++ g.leading k) ++ (g.word :: (inner ++ back)) = xs := calc
    _ = front ++ Tree.leavesOfAll n.children ++ back := by rw [hleaves]; simp
    _ = xs := hxs
  have hall : (front ++ g.leading k) ++ (g.word :: (inner ++ back)) =
      (g.front ++ g.trivia) ++ g.word :: g.back := hsplit.trans g.append_eq.symm
  refine append_inj_of_joined hall ?_ fun x hx => htext x (hsplit ▸ hx)
  have htaken := takeBytes_append (joined (front ++ g.leading k)) (joined (g.word :: (inner ++ back)))
  rw [← joined_append, hall, joined_append (g.front ++ g.trivia), joined_append front, byteLength_append,
    ← hstart, hadd, takeBytes_append] at htaken
  rw [joined_append front]
  exact (Option.some.inj htaken).symm

variable {source : List Char} {options : ParseOptions} {p m : Node} {front : List Lexeme} {d : Draft}
  {us mid vs : List Element} {x : Leaf}

/-- Where a node with words stands behind a word and some blanks and comments, its first word stands behind
some more, with a line break only if there is one before the node. -/
theorem Stands.exists_lead (hp : p ∈ (parseWith options source).tree.nodes 0)
    (hstands : p.Stands 0 (lexemes source) front d) (houter : Expr.isForm p.kind = false)
    (hes : p.elements = us ++ .leaf x :: (mid ++ .node m :: vs)) (hx : x.kind.isTrivia = false)
    (hmid : ∀ y ∈ mid.flatMap Element.lexemes, y.kind.isTrivia)
    (hword : ∃ y ∈ Tree.leavesOfAll m.children, y.kind.isTrivia = false) :
    ∃ lead w inner, Tree.leavesOfAll m.children = lead ++ w :: inner ∧ (∀ y ∈ lead, y.kind.isTrivia) ∧
      w.kind.isTrivia = false ∧ (hasBreak lead → hasBreak (mid.flatMap Element.lexemes)) := by
  have hmem : m ∈ p.childNodes :=
    List.mem_filterMap.2 ⟨.node m, by simp [hes], Element.node?_node m⟩
  obtain ⟨before, after, g, -, hbegins⟩ := exists_beginsIn options source hp houter hmem hword
  generalize countBehind g.front (before.map (·.start)) = k at hbegins
  have hes' : p.elements = (us ++ .leaf x :: mid) ++ .node m :: vs := by simp [hes]
  obtain ⟨⟨back, hback⟩, hstart⟩ := hstands.exists_back hes'
  rw [Nat.zero_add] at hstart
  have hplace := hbegins.append_leading hback.symm hstart fun y hy => text_ne_nil_of_mem_lexemes hy
  have hends : g.front ++ g.trivia = (front ++ us.flatMap Element.lexemes) ++
      x.lexeme :: (mid.flatMap Element.lexemes ++ g.leading k) := by
    rw [← hplace]
    simp [Element.lexemes]
  obtain ⟨skipped, hskipped, hbreak⟩ := g.exists_leading k
  have hlead (y : Lexeme) (hy : y ∈ g.leading k) : y.kind.isTrivia :=
    g.isTrivia y (hskipped ▸ List.mem_append_right _ hy)
  obtain ⟨hfront, hgap⟩ := g.trivia_eq hx (List.forall_mem_append.2 ⟨hmid, hlead⟩) hends
  obtain rfl : skipped = mid.flatMap Element.lexemes :=
    List.append_cancel_right (hskipped.symm.trans hgap)
  obtain ⟨-, inner, hleaves⟩ := hbegins
  exact ⟨g.leading k, g.word, inner, hleaves, hlead, g.isTrivia_word, hbreak (by simp [hfront])⟩

variable {ps qs : List (Piece Draft)} {w : Word} {e : Draft}

/-- The elements of a node on both sides of a word and the node behind it.  The first word inside that node
starts a line just if there is a line break between the two. -/
theorem Stands.exists_behind_word (hp : p ∈ (parseWith options source).tree.nodes 0)
    (hstands : p.Stands 0 (lexemes source) front d) (houter : Expr.isForm p.kind = false)
    (hd : d.pieces = ps ++ .word w :: .node e :: qs) :
    ∃ us x mid m vs, p.elements = us ++ .leaf x :: (mid ++ .node m :: vs) ∧ x.lexeme = w.lexeme ∧
      Element.ShowAll us ps ∧ Element.ShowAll mid [] ∧ (Tree.node m.kind m.children).Shows e ∧
      ∀ v ∈ e.words.head?, v.startsLine = hasBreak (mid.flatMap Element.lexemes) := by
  have hshow := hstands.showAll
  rw [hd] at hshow
  obtain ⟨us, x, rest, hes, hx, hlexeme, hus, hrest⟩ := hshow.exists_word
  rw [← List.nil_append (_ :: _)] at hrest
  obtain ⟨mid, m, vs, rfl, hm, hmid, -⟩ := hrest.exists_node
  refine ⟨us, x, mid, m, vs, hes, hlexeme, hus, hmid, hm, fun v hv => ?_⟩
  have htrivia : ∀ y ∈ mid.flatMap Element.lexemes, y.kind.isTrivia := by
    intro y hy
    obtain ⟨c, hc, hy⟩ := List.mem_flatMap.1 hy
    rcases hmid.of_mem hc with ⟨z, rfl, hz⟩ | ⟨_, _, -, hnone, -⟩ | ⟨_, _, -, hnone, -⟩
    · obtain rfl := List.mem_singleton.1 hy
      exact hz
    · cases hnone
    · cases hnone
  obtain ⟨ws, hws⟩ := List.head?_eq_some_iff.1 hv
  have hword : ∃ y ∈ Tree.leavesOfAll m.children, y.kind.isTrivia = false := by
    have hwords := Tree.words_leaves hm.shape
    rw [hws] at hwords
    have hmem : v.lexeme ∈ Lexeme.words (Tree.leavesOfAll m.children) := hwords ▸ List.mem_cons_self
    exact ⟨v.lexeme, (List.mem_filter.1 hmem).1, by simpa using (List.mem_filter.1 hmem).2⟩
  obtain ⟨lead, y, inner, hleaves, hlead, hy, hbreak⟩ :=
    hstands.exists_lead hp houter hes hx htrivia hword
  -- The words of the node, counted from the one before the gap on.
  obtain ⟨b, hwords⟩ := hstands.shows.words
  have hall : Tree.leaves (.node p.kind p.children) = us.flatMap Element.lexemes ++
      x.lexeme :: ((mid.flatMap Element.lexemes ++ lead) ++ y :: (inner ++ vs.flatMap Element.lexemes)) := by
    have hflat : p.elements.flatMap Element.lexemes = Tree.leavesOfAll p.children :=
      Element.flatMap_lexemes _ _
    rw [Tree.leaves, ← hflat, hes]
    simp [Element.lexemes, hleaves]
  obtain ⟨c, hc⟩ := Word.exists_ofLexemes_behind b (us.flatMap Element.lexemes) (x := x.lexeme) hx hy
    (List.forall_mem_append.2 ⟨htrivia, hlead⟩) (inner ++ vs.flatMap Element.lexemes)
  rw [hall, hc, d.words_eq, hd, Draft.wordsOfAll_append, Draft.wordsOfAll, Draft.wordsOfAll, hws] at hwords
  have hlength : (Word.ofLexemes b (us.flatMap Element.lexemes)).length = (Draft.wordsOfAll ps).length := by
    rw [Word.length_ofLexemes, hus.length_words]
  have hbehind := (List.cons.inj (List.append_inj hwords hlength).2).2
  have hfirst := (List.cons.inj hbehind).1
  rw [← hfirst, hasBreak_append]
  cases hnone : hasBreak lead with
  | false => exact Bool.or_false _
  | true => rw [hbreak hnone, Bool.true_or]

end Node

end CRBasic
