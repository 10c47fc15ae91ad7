import RdkComponents.GoValues
import RdkComponents.BaseWrapper
import RdkComponents.ReferenceCell
import RdkComponents.WrapperOwnership
import RdkComponents.BaseMoves
import RdkComponents.LockSteps
import RdkComponents.LockProgress
import RdkComponents.Linearization
import RdkComponents.HeapSteps
import RdkComponents.HeapLinearization
import RdkComponents.ServoClient
