import Cppim.Http.Server

/-! `HttpContext::parseRequest` on a request that arrives in pieces. The cuts may
fall anywhere, also inside a line end, a header or the body; `parseRequest_chunks`
says that they leave no trace. -/

namespace Cppim.Http.HttpServer

open Cppim.Common Cppim.Lib Cppim.Lib.Loop Cppim.Lib.Framing Cppim.Lib.Incremental
open HttpContext

/-- The chunks are received one at a time with a call of `parseRequest` after each,
until `gotAll()` holds. -/
def parseChunks :
    HttpContext × Buffer → List Bytes → Outcome ((HttpContext × Buffer) × List Bytes) Bool Fault :=
  feedUntil (fun s => s.1.gotAll) parseRequest receive

/-- `parseChunks` over the unread bytes. -/
def readChunks :
    HttpContext × Bytes → List Bytes → Outcome ((HttpContext × Bytes) × List Bytes) Bool Fault :=
  feedUntil (fun p => p.1.gotAll) readRequest fun p chunk => .ok (more chunk p)

theorem parseChunks_view (s : HttpContext × Buffer) (cs : List Bytes) :
    (parseChunks s cs).map (fun p => (view p.1, p.2)) = readChunks (view s) cs := by
  refine feedUntil_map ?_ parseRequest_view receive_view cs s
  intro s
  rfl

/-- A call that returns true has got everything or waits for more. -/
theorem readTurn_waits {p t : HttpContext × Bytes} (h : Ends readTurn p [true] t)
    (ht : t.1.gotAll = false) : readTurn t = .leave [true] t := by
  generalize ho : [true] = o at h
  induction h with
  | leave hp =>
    cases read_of_eq hp with
    | noLine _ _ => exact hp
    | shortBody _ _ => exact hp
    | noBody _ => cases ht
    | body _ _ => cases ht
    | badRequestLine _ _ => cases ho
    | badHeader _ _ => cases ho
  | again hp _ ih =>
    obtain rfl := readTurn_again_out hp
    exact ih ht ho

/-- **Segmentation leaves no trace.** Let one call on a fresh context with all of
`w` buffered return true. When `w` arrives in any chunks, every call returns
true, and the calls end with the same context and the same unread bytes. -/
theorem parseRequest_chunks (w : Bytes) (whole rest : Buffer) (ctx : HttpContext)
    (hwhole : whole.readable = w) (hone : parseRequest ({}, whole) = .done [true] (ctx, rest))
    (cs : List Bytes) (hcs : cs.flatten = w) (empty : Buffer) (hempty : empty.readable = []) :
    ∃ called left buf, cs = called ++ left ∧
      parseChunks ({}, empty) cs = .done (called.map fun _ => true) ((ctx, buf), left) ∧
      buf.readable ++ left.flatten = rest.readable := by
  have hends : Ends readTurn (more cs.flatten ({}, [])) [true] (ctx, rest.readable) := by
    have hview := parseRequest_view ({}, whole)
    rw [hone] at hview
    rw [hcs, ← hwhole]
    exact (readRequest_done_iff _ _ _).mp hview.symm
  obtain ⟨called, left, t, hsplit, hread, ht⟩ := feedUntil_of_ends readTurn_resumes
    eq_nil_of_ends_append (fun p => p.1.gotAll) (fun _ _ => rfl) readTurn_waits
    not_gotAll_of_wait (fun h => (readRequest_done_iff _ _ _).mpr h) cs ({}, []) _ rfl hends
  have hview := parseChunks_view ({}, empty) cs
  simp only [view, hempty] at hview
  rw [readChunks, hread] at hview
  obtain ⟨⟨⟨ctx', buf⟩, left'⟩, hparse, heq⟩ := map_eq_done hview
  simp only [Prod.mk.injEq] at heq
  obtain ⟨rfl, rfl⟩ := heq
  simp only [more, Prod.mk.injEq] at ht
  obtain ⟨rfl, hrest⟩ := ht
  refine ⟨called, left', buf, hsplit, ?_, hrest⟩
  rw [hparse]
  simp [List.flatMap]

/-- A request with a body of two bytes, and one byte more. -/
def postAb : Bytes := bytes "POST /a HTTP/1.1\r\nContent-Length: 2\r\n\r\nabc"

theorem parseRequest_chunks_in_line_end :
    ∃ whole rest ctx, whole.readable = postAb ∧
      parseRequest ({}, whole) = .done [true] (ctx, rest) ∧ rest.readable = bytes "c" ∧
      ∃ called left buf,
        [bytes "POST /a HTTP/1.1\r", bytes "\nContent-Length: 2\r\n\r", bytes "\na", bytes "b",
          bytes "c"] = called ++ left ∧
        parseChunks ({}, Buffer.ofSize 16)
          [bytes "POST /a HTTP/1.1\r", bytes "\nContent-Length: 2\r\n\r", bytes "\na", bytes "b",
            bytes "c"] = .done (called.map fun _ => true) ((ctx, buf), left) ∧
        buf.readable ++ left.flatten = rest.readable := by
  obtain ⟨whole, -, hwhole, -⟩ := (Buffer.ofSize 16).append_ok postAb
  rw [Buffer.readable_ofSize, List.nil_append] at hwhole
  have hread : ∃ ctx, readRequest ({}, postAb) = .done [true] (ctx, bytes "c") :=
    ⟨⟨.kGotAll,
      { method_ := .kPost, version_ := .kHttp11, path_ := bytes "/a", body_ := bytes "ab"
        headers_ := (∅ : StringMap).insert (bytes "Content-Length") (bytes "2") }⟩,
      by decide +kernel⟩
  obtain ⟨ctx, hread⟩ := hread
  have hview := parseRequest_view ({}, whole)
  rw [view, hwhole, hread] at hview
  obtain ⟨⟨ctx', rest⟩, hone, heq⟩ := map_eq_done hview
  simp only [view, Prod.mk.injEq] at heq
  refine ⟨whole, rest, ctx', hwhole, hone, heq.2, ?_⟩
  exact parseRequest_chunks postAb whole rest ctx' hwhole hone _ (by decide) (Buffer.ofSize 16)
    (Buffer.readable_ofSize 16)

end Cppim.Http.HttpServer
