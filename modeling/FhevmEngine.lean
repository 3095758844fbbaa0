import FhevmEngine.Run
import FhevmEngine.GpuMemory.Pool
import FhevmEngine.GpuMemory.Conservation
import FhevmEngine.GpuMemory.Admission
import FhevmEngine.GpuMemory.OverRelease
import FhevmEngine.GpuMemory.Refinement
import FhevmEngine.GpuMemory.Progress
import FhevmEngine.GpuMemory.OpSize
import FhevmEngine.GpuMemory.Estimate
import FhevmEngine.HealthCheck.Tick
