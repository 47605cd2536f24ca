import ResourceShards.Markup.Cursor
import ResourceShards.Proofs.Markup.Window

/-!
# ResourceShards.Proofs.Markup.Cursor

**Cut at once or event by event.** A cursor cuts the events of an element out when it goes into the
element, and works out on the way back where reading goes on. A lookout hands every event through
the views that are set into each other and learns where an element ends only when its end tag comes
by. Whatever is called, on whatever events, both give the same: this relates every reader that cuts
views out of a document to views that share one source.

* `Cursor.Agrees`: cursors inside each other that stand where a lookout does
* `Cursor.agrees_call`: each call gives the same on both sides
* `Lookout.drain_enter`: what a view gives is what is cut out
-/

namespace ResourceShards.Markup

namespace View

/-- `splitFrom` keeps the events that were seen before in front of what it cuts. -/
theorem splitFrom_seen (name : Name) (depth : Nat) (seen events : List Event) :
    splitFrom name depth seen events =
      ⟨seen.reverse ++ (splitFrom name depth [] events).inside,
        (splitFrom name depth [] events).closing⟩ := by
  induction events generalizing depth seen with
  | nil => simp [splitFrom]
  | cons e rest ih =>
      have hpass (d : Nat) : splitFrom name d (e :: seen) rest =
          ⟨seen.reverse ++ (splitFrom name d [e] rest).inside,
            (splitFrom name d [e] rest).closing⟩ := by
        rw [ih d (e :: seen), ih d [e]]
        simp
      unfold splitFrom
      split
      · exact hpass _
      · split
        · split
          · simp
          · exact hpass _
        · exact hpass _
      · exact hpass _

/-- `Window.pass` does with the next event what `splitFrom` does. -/
theorem splitFrom_pass {w : Window} {depth : Nat} (hdepth : w.depth = depth + 1) (e : Event)
    (rest : List Event) :
    (∃ depth' : Nat, w.pass e = (some e, { w with depth := depth' + 1 }) ∧
        splitFrom w.name depth [] (e :: rest) =
          ⟨e :: (splitFrom w.name depth' [] rest).inside,
            (splitFrom w.name depth' [] rest).closing⟩) ∨
      w.pass e = (none, { w with depth := 0, done := true, closed := true }) ∧
        splitFrom w.name depth [] (e :: rest) = ⟨[], some (e, rest)⟩ := by
  obtain ⟨offset, token⟩ := e
  have hpass (d : Nat) : splitFrom w.name d [⟨offset, token⟩] rest =
      ⟨⟨offset, token⟩ :: (splitFrom w.name d [] rest).inside,
        (splitFrom w.name d [] rest).closing⟩ := by
    rw [splitFrom_seen]
    rfl
  cases token with
  | start tag =>
      by_cases hname : tag.name = w.name
      · exact .inl ⟨depth + 1, by simp [Window.pass, hname, hdepth], by
          simp [splitFrom, hname, hpass]⟩
      · exact .inl ⟨depth, by simp [Window.pass, hname, ← hdepth], by
          simp [splitFrom, hname, hpass]⟩
  | finish found =>
      by_cases hname : found = w.name
      · cases depth with
        | zero => exact .inr ⟨by simp [Window.pass, hname, hdepth], by simp [splitFrom, hname]⟩
        | succ outer =>
            obtain rfl := hname
            have hpos : (outer : Int) + 1 ≠ 0 := by omega
            exact .inl ⟨outer, by simp [Window.pass, hdepth, hpos], by simp [splitFrom, hpass]⟩
      · have hpos : w.depth ≠ 0 := by omega
        exact .inl ⟨depth, by simp [Window.pass, hname, hpos, ← hdepth], by
          simp [splitFrom, hname, hpass]⟩
  | _ => exact .inl ⟨depth, by rw [← hdepth]; rfl, hpass depth⟩

end View

namespace Cursor

/-- A row of cursors, the innermost first, that stand where a lookout does. Going back out of the
innermost one must come to where its source stands. -/
inductive Agrees : List Cursor → Lookout → Prop
  /-- In a document. -/
  | document {c : Cursor} (hclosing : c.closing = none) : Agrees [c] (.document c.ahead)
  /-- In a view that goes on: what is ahead is what a cut with its count makes of its source. -/
  | through {c source : Cursor} {sources : List Cursor} {w : Window} {outer : Lookout} {depth : Nat}
      (houter : Agrees (source.leave c :: sources) outer) (hdone : w.done = false)
      (hclosed : w.closed = false) (hdepth : w.depth = depth + 1) (hcursor : c.done = false)
      (hsplit : View.splitFrom w.name depth [] (source.leave c).ahead = ⟨c.ahead, c.closing⟩) :
      Agrees (c :: source :: sources) (.through w outer)
  /-- In a view that has ended. -/
  | ended {c source : Cursor} {sources : List Cursor} {w : Window} {outer : Lookout}
      (houter : Agrees (source.leave c :: sources) outer) (hdone : w.done = true)
      (hcursor : c.done = true) (hahead : c.ahead = []) (hclosed : w.closed = c.closing.isSome) :
      Agrees (c :: source :: sources) (.through w outer)

/-- What a call comes to for cursors inside each other. -/
def call : List Cursor → Lookout.Call → List Cursor
  | c :: sources, .next => c.next.2 :: sources
  | c :: sources, .enter name => c.enter name :: c :: sources
  | c :: source :: sources, .leave => source.leave c :: sources
  | cursors, _ => cursors

/-- `next` on a cursor that has not ended leaves its source where `next` would. -/
theorem leave_next {c : Cursor} (source : Cursor) (hcursor : c.done = false) :
    (source.leave c).next.2 = source.leave c.next.2 := by
  obtain ⟨ahead, closing, done⟩ := c
  obtain rfl := hcursor
  cases ahead with
  | nil =>
      cases closing with
      | none => simp [leave, Cursor.next]
      | some found => rfl
  | cons e rest =>
      cases closing with
      | none => rfl
      | some found => rfl

/-- `next` gives the same event on both sides, which still agree. -/
theorem Agrees.next {c : Cursor} {sources : List Cursor} {l : Lookout}
    (h : Agrees (c :: sources) l) :
    c.next.1 = l.next.1 ∧ Agrees (c.next.2 :: sources) l.next.2 := by
  induction l generalizing c sources with
  | document ahead =>
      cases h with
      | document hclosing =>
          obtain ⟨ahead, closing, done⟩ := c
          cases ahead with
          | nil => exact ⟨rfl, .document hclosing⟩
          | cons e rest => exact ⟨rfl, .document hclosing⟩
  | through w outer ih =>
      cases h with
      | @through _ source sources _ _ depth houter hdone hclosed hdepth hcursor hsplit =>
          obtain ⟨hsame, hnext⟩ := ih houter
          rw [leave_next source hcursor] at hnext
          cases hahead : (source.leave c).ahead with
          | nil =>
              rw [hahead, View.splitFrom] at hsplit
              obtain ⟨ahead, closing, done⟩ := c
              obtain ⟨rfl, rfl⟩ := View.Split.mk.inj hsplit
              have houter' : outer.next = (none, outer.next.2) := by
                refine Prod.ext (hsame.symm.trans ?_) rfl
                rw [Cursor.next, hahead]
              unfold Lookout.next
              rw [houter']
              refine ⟨by simp [hdone, Cursor.next], ?_⟩
              simp only [hdone]
              exact .ended hnext rfl rfl rfl hclosed
          | cons e rest =>
              have houter' : outer.next = (some e, outer.next.2) := by
                refine Prod.ext (hsame.symm.trans ?_) rfl
                rw [Cursor.next, hahead]
              have hrest : (source.leave c.next.2).ahead = rest := by
                rw [← leave_next source hcursor, Cursor.next, hahead]
              rw [hahead] at hsplit
              obtain ⟨ahead, closing, done⟩ := c
              unfold Lookout.next
              rw [houter']
              rcases View.splitFrom_pass hdepth e rest with ⟨depth', hpass, hcut⟩ | ⟨hpass, hcut⟩
              · rw [hsplit] at hcut
                obtain ⟨rfl, rfl⟩ := View.Split.mk.inj hcut
                refine ⟨by simp [hdone, hpass, Cursor.next], ?_⟩
                simp only [hdone, hpass]
                refine .through hnext rfl hclosed rfl hcursor ?_
                rw [hrest]
                rfl
              · rw [hsplit] at hcut
                obtain ⟨rfl, rfl⟩ := View.Split.mk.inj hcut
                refine ⟨by simp [hdone, hpass, Cursor.next], ?_⟩
                simp only [hdone, hpass]
                exact .ended hnext rfl rfl rfl rfl
      | ended houter hdone hcursor hahead hclosed =>
          obtain ⟨ahead, closing, done⟩ := c
          obtain rfl := hcursor
          obtain rfl := hahead
          simp only [Lookout.next, hdone, if_true]
          exact ⟨rfl, .ended houter hdone rfl rfl hclosed⟩

/-- **A cursor gives what views give.** Every call keeps the two together. -/
theorem agrees_call {cursors : List Cursor} {l : Lookout} (h : Agrees cursors l)
    (c : Lookout.Call) : Agrees (call cursors c) (l.call c) := by
  cases c with
  | next =>
      cases cursors with
      | nil => nomatch h
      | cons c sources => exact h.next.2
  | enter name =>
      cases cursors with
      | nil => nomatch h
      | cons c sources =>
          exact .through (by rwa [leave_enter]) rfl rfl rfl rfl (by rw [leave_enter]; rfl)
  | leave =>
      cases h with
      | document hclosing => exact .document hclosing
      | through houter => exact houter
      | ended houter => exact houter

/-- After any calls on a document the cursors and the `Lookout` agree. -/
theorem agrees_run (events : List Event) (calls : List Lookout.Call) :
    Agrees (calls.foldl call [start events]) ((Lookout.document events).run calls) := by
  suffices h : ∀ cursors l, Agrees cursors l → Agrees (calls.foldl call cursors) (l.run calls) from
    h _ _ (.document rfl)
  induction calls with
  | nil => exact fun _ _ h => h
  | cons c calls ih => exact fun cursors l h => ih _ _ (agrees_call h c)

/-- `isClosed` is the same on both sides. -/
theorem Agrees.isClosed {c : Cursor} {sources : List Cursor} {l : Lookout}
    (h : Agrees (c :: sources) l) : c.isClosed = l.isClosed := by
  cases h with
  | document hclosing => simp [Cursor.isClosed, hclosing, Lookout.isClosed]
  | through _ _ hclosed _ hcursor => simp [Cursor.isClosed, hcursor, Lookout.isClosed, hclosed]
  | ended _ _ hcursor _ hclosed => simp [Cursor.isClosed, hcursor, Lookout.isClosed, hclosed]

/-- `drain` gives the same events on both sides, which still agree. -/
theorem Agrees.drain {c : Cursor} {sources : List Cursor} {l : Lookout}
    (h : Agrees (c :: sources) l) :
    c.drain.1 = l.drain.1 ∧ Agrees (c.drain.2 :: sources) l.drain.2 := by
  obtain ⟨ahead, closing, done⟩ := c
  induction ahead generalizing l done with
  | nil =>
      obtain ⟨hsame, hnext⟩ := h.next
      rw [Lookout.drain_of_none (Prod.ext hsame.symm rfl)]
      exact ⟨rfl, hnext⟩
  | cons e rest ih =>
      obtain ⟨hsame, hnext⟩ := h.next
      rw [Lookout.drain_of_some (Prod.ext hsame.symm rfl)]
      obtain ⟨hrest, hlast⟩ := ih done hnext
      exact ⟨congrArg (e :: ·) hrest, hlast⟩

end Cursor

/-- `drain` after `enter` gives what `View.split` cuts out, and `isClosed` tells whether there is an
end tag to cut at. -/
theorem Lookout.drain_enter {c : Cursor} {sources : List Cursor} {l : Lookout}
    (h : Cursor.Agrees (c :: sources) l) (name : Name) :
    (l.enter name).drain.1 = (View.split name c.ahead).inside ∧
      (l.enter name).drain.2.isClosed = (View.split name c.ahead).closing.isSome := by
  obtain ⟨hevents, hlast⟩ := (Cursor.agrees_call h (.enter name)).drain
  exact ⟨hevents.symm, hlast.isClosed.symm⟩

end ResourceShards.Markup
