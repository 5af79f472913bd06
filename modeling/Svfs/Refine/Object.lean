import Svfs.Python.Methods
import Svfs.Refine.Ask

/-! A `cSVF` of a represented file.

A write of bytes of `F` that runs into nothing returns, and so does a read of what is held;
both leave an object of a represented file. -/
namespace Svfs
namespace CpSparseVirtualFile
variable {F : Nat → Byte} {self : CpSparseVirtualFile} {H : Set Nat} {fpos len : Nat}

theorem write_bytesOver (h : Represents F self.pSvf H) (now : Int) (hlen : 0 < len) (hfit : fpos + len < 2 ^ 64)
    (hruns : ¬ Segments.RunsInto H fpos len) :
    ∃ after, self.write now fpos (bytesOver F fpos len) = ⟨.returned .none, after⟩ ∧
      Represents F after.pSvf (H ∪ Demand.range (fpos, len)) ∧ Fixed self.pSvf.file after.pSvf.file := by
  obtain ⟨hresult, hrepresents⟩ := h.write_bytesOver now hlen hfit (mt h.runsIntoNext_iff.mp hruns)
  have hfixed := World.fixed_write now fpos (bytesOver F fpos len) self.pSvf
  refine ⟨self.after _ hfixed, ?_, hrepresents, hfixed⟩
  simp only [write, length_bytesOver, hlen, if_true, hresult]

theorem read_hit (h : Represents F self.pSvf H) (now : Int) (hlen : 0 < len) (hfit : fpos + len < 2 ^ 64)
    (hhit : Demand.Hit H (fpos, len)) :
    ∃ after, self.read now fpos len = ⟨.returned (.bytes (bytesOver F fpos len)), after⟩ ∧
      Represents F after.pSvf H ∧ Fixed self.pSvf.file after.pSvf.file := by
  have hresult := h.read_of_hit now hlen hfit hhit
  have hfixed := World.fixed_read now fpos len self.pSvf
  refine ⟨self.after _ hfixed, ?_, read_represents h now fpos len, hfixed⟩
  simp only [read, svfReadAsPyBytes, hresult, PyOutcome.bind]

theorem hasData_iff (h : Represents F self.pSvf H) (hlen : 0 < len) (hfit : fpos + len < 2 ^ 64) :
    self.hasData fpos len = true ↔ Demand.Hit H (fpos, len) := h.has_iff hlen hfit

end CpSparseVirtualFile
end Svfs
